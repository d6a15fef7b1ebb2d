import RustKv.AofDurability
import RustKv.LogRuns
import RustKv.TornLog

namespace RustKv.Durability

open Runs Pieces Text Protocol Domain CacheStore Zset RustKv.Types Executor AofRoundTrip Recovery
  RustKv.Normal Clients

section Runs

variable {I S J : Type} [Host] [DecidableEq I] [F64 S] [SerdeJson J]

structure Server (I S J : Type) [Host] where
  machine : Machine I S J
  writer : AofWriter.State

def sendAll (w : AofWriter.State) (msgs : List Bytes) : AofWriter.State :=
  { w with sent := w.sent ++ msgs, channel := w.channel ++ msgs }

inductive Step (fsync : AofWriter.AofFsync) : Server I S J → Server I S J → Prop
  | client {s : Server I S J} {l : Label I S} {m' : Machine I S J} {msgs : List Bytes}
      (hl : InLock s.machine l) (h : Clients.Step s.machine l m') (haof : m'.aof = s.machine.aof ++ msgs)
      (hopen : s.writer.senders = true) : Step fsync s ⟨m', sendAll s.writer msgs⟩
  | writer {s : Server I S J} {w' : AofWriter.State} (h : AofWriter.Step fsync s.writer w')
      (hsent : w'.sent = s.writer.sent) : Step fsync s ⟨s.machine, w'⟩

variable {fsync : AofWriter.AofFsync} {m : Machine I S J} {s s' : Server I S J} {rts : Nat → Runtime}

/-- Both parts run as they do alone, and what the clients log is what the writer is sent. -/
structure Joined (fsync : AofWriter.AofFsync) (m : Machine I S J) (s : Server I S J) : Prop where
  machine : Reaches Clients.Step InLock m s.machine
  writer : AofWriter.Reaches fsync .start s.writer
  sent : s.writer.sent = s.machine.aof

theorem Joined.ordered (hj : Joined fsync m s) (h : Initial m) (rts : Nat → Runtime) :
    Ordered rts m.db s.machine := by
  have hstart : Ordered rts m.db m ∧ Locked m ∧ ∀ i t, m.clients i = .running t → t.InLock :=
    ⟨h.ordered rts, h.locked, fun i t ht => absurd ht (h.not_running i t)⟩
  have hinv := hj.machine.invariant (I := fun m' => Ordered rts m.db m' ∧ Locked m' ∧
    ∀ i t, m'.clients i = .running t → t.InLock) (fun m₁ l m₂ hm hl hs => by
      obtain ⟨hordered, hlocked, hin⟩ := hm
      exact ⟨hordered.step (orderly_of_inLock hlocked hin hl) hs, hlocked.step hs, inLock_step hin hl hs⟩) hstart
  exact hinv.1

end Runs

section Sample

attribute [local instance] singleShard wholeScore flatJson

end Sample

end RustKv.Durability
