import Mathlib.Logic.Relation
import RustKv.Text

namespace RustKv.AofWriter

open Text

section Task

abbrev AofMessage := Bytes

inductive AofFsync
  | always
  | everySec
  | no
  deriving DecidableEq

/-- The BufWriter of the task: what has been appended to the file since it was opened,
what is still in the buffer of the writer, and what of the file is on the device. -/
structure BufWriter where
  file : Bytes
  pending : Bytes
  synced : Bytes

/-- The writer takes data in and hands some of what it then has on to the file. -/
def BufWriter.accept (w : BufWriter) (data : Bytes) (passed : Nat) : BufWriter where
  file := w.file ++ (w.pending ++ data).take passed
  pending := (w.pending ++ data).drop passed
  synced := w.synced

def BufWriter.flush (w : BufWriter) : BufWriter where
  file := w.file ++ w.pending
  pending := []
  synced := w.synced

def BufWriter.syncData (w : BufWriter) : BufWriter := { w with synced := w.file }

/-- Where the task is. The steps from a write to the next sync stand in the loop and once
more, as the final ones, behind it. -/
inductive Place
  | select
  | batch
  | drain
  | write (final : Bool) (i : Nat)
  | flush (final : Bool)
  | sync (final : Bool)
  | returned

/-- The channel, with all that was ever sent and received on it, and the task. -/
structure State where
  sent : List AofMessage
  received : List AofMessage
  channel : List AofMessage
  senders : Bool
  buffer : List AofMessage
  file : BufWriter
  errors : Nat
  place : Place

def State.start : State := ⟨[], [], [], true, [], ⟨[], [], []⟩, 0, .select⟩

def State.receive (s : State) (msg : AofMessage) (channel : List AofMessage) (place : Place) : State :=
  { s with received := s.received ++ [msg], channel := channel, buffer := s.buffer ++ [msg], place := place }

def State.failed (s : State) : State := { s with errors := s.errors + 1 }

/-- The end of a round. -/
def State.synced (fsync : AofFsync) (s : State) : State :=
  { s with file := if fsync = .always then s.file.syncData else s.file, buffer := [], place := .select }

def State.ticked (fsync : AofFsync) (s : State) : State :=
  { s with file := if fsync = .everySec then s.file.syncData else s.file }

/-- A step of a sender or of aof_writer_task. A try_recv may find nothing although there
is a message in the channel whose sender is not done with it. -/
inductive Step (fsync : AofFsync) : State → State → Prop
  | send (s : State) (msg : AofMessage) (hs : s.senders = true) :
      Step fsync s { s with sent := s.sent ++ [msg], channel := s.channel ++ [msg] }
  | drop (s : State) : Step fsync s { s with senders := false }
  | recv (s : State) (msg : AofMessage) (rest : List AofMessage) (hp : s.place = .select)
      (hc : s.channel = msg :: rest) : Step fsync s (s.receive msg rest .batch)
  | closed (s : State) (hp : s.place = .select) (hc : s.channel = []) (hs : s.senders = false) :
      Step fsync s { s with place := .drain }
  | tick (s : State) (hp : s.place = .select) : Step fsync s (s.ticked fsync)
  | tickFails (s : State) (hp : s.place = .select) (hf : fsync = .everySec) : Step fsync s s.failed
  | tryRecv (s : State) (msg : AofMessage) (rest : List AofMessage) (hp : s.place = .batch)
      (hb : s.buffer.length < 5000) (hc : s.channel = msg :: rest) : Step fsync s (s.receive msg rest .batch)
  | tryRecvFails (s : State) (hp : s.place = .batch) : Step fsync s { s with place := .write false 0 }
  | drain (s : State) (msg : AofMessage) (rest : List AofMessage) (hp : s.place = .drain)
      (hc : s.channel = msg :: rest) : Step fsync s (s.receive msg rest .drain)
  | drained (s : State) (hp : s.place = .drain) : Step fsync s { s with place := .write true 0 }
  | write (s : State) (final : Bool) (i : Nat) (msg : AofMessage) (passed : Nat)
      (hp : s.place = .write final i) (hm : s.buffer[i]? = some msg) :
      Step fsync s { s with file := s.file.accept msg passed, place := .write final (i + 1) }
  | writeFails (s : State) (final : Bool) (i : Nat) (msg : AofMessage) (taken passed : Nat)
      (hp : s.place = .write final i) (hm : s.buffer[i]? = some msg) :
      Step fsync s (State.failed { s with
        file := s.file.accept (msg.take taken) passed, place := .write final (i + 1) })
  | written (s : State) (final : Bool) (i : Nat) (hp : s.place = .write final i) (hm : s.buffer[i]? = none) :
      Step fsync s { s with place := .flush final }
  | flush (s : State) (final : Bool) (hp : s.place = .flush final) :
      Step fsync s { s with file := s.file.flush, place := .sync final }
  | flushFails (s : State) (final : Bool) (passed : Nat) (hp : s.place = .flush final) :
      Step fsync s (State.failed { s with file := s.file.accept [] passed, place := .sync final })
  | sync (s : State) (hp : s.place = .sync false) : Step fsync s (s.synced fsync)
  | syncFails (s : State) (hp : s.place = .sync false) (hf : fsync = .always) :
      Step fsync s (State.failed { s with buffer := [], place := .select })
  | lastSync (s : State) (hp : s.place = .sync true) :
      Step fsync s { s with file := s.file.syncData, place := .returned }
  | lastSyncFails (s : State) (hp : s.place = .sync true) :
      Step fsync s (State.failed { s with place := .returned })

end Task

section Invariant

theorem BufWriter.accept_bytes (w : BufWriter) (data : Bytes) (passed : Nat) :
    (w.accept data passed).file ++ (w.accept data passed).pending = w.file ++ w.pending ++ data := by
  simp [accept, List.append_assoc]

/-- The loop has been left. -/
def Place.final : Place → Bool
  | .select | .batch => false
  | .drain | .returned => true
  | .write final _ | .flush final | .sync final => final

/-- Nothing has been written since the last flush. -/
def Place.quiet : Place → Bool
  | .write _ _ | .flush _ => false
  | _ => true

def State.unwritten (s : State) : List AofMessage :=
  match s.place with
  | .select | .batch | .drain => s.buffer
  | .write _ i => s.buffer.drop i
  | .flush _ | .sync _ | .returned => []

structure Inv (s : State) : Prop where
  sent : s.sent = s.received ++ s.channel
  select : s.place = .select → s.buffer = []
  bounded : s.place.final = false → s.buffer.length ≤ 5000
  closed : s.place.final = true → s.channel = [] ∧ s.senders = false
  written : s.errors = 0 → ∃ written, s.received = written ++ s.unwritten ∧
    s.file.file ++ s.file.pending = written.flatten
  quiet : s.errors = 0 → s.place.quiet = true → s.file.pending = []

theorem inv_start : Inv .start where
  sent := rfl
  select _ := rfl
  bounded _ := Nat.zero_le _
  closed h := by cases h
  written _ := ⟨[], rfl, rfl⟩
  quiet _ _ := rfl

variable {fsync : AofFsync} {s s' : State}

theorem Inv.receive {msg : AofMessage} {rest : List AofMessage} (hi : Inv s) (hc : s.channel = msg :: rest)
    (hu : s.unwritten = s.buffer) (hq : s.place.quiet = true) (hb : s.buffer.length < 5000) :
    Inv (s.receive msg rest .batch) where
  sent := by simp [State.receive, hi.sent, hc]
  select h := by cases h
  bounded _ := by
    simp only [State.receive, List.length_append, List.length_singleton]
    omega
  closed h := by cases h
  written he := by
    obtain ⟨written, hreceived, hbytes⟩ := hi.written he
    rw [hu] at hreceived
    refine ⟨written, ?_, hbytes⟩
    simp [State.receive, State.unwritten, hreceived]
  quiet he _ := hi.quiet he hq

theorem Inv.move (hi : Inv s) (place : Place) (hselect : place ≠ .select)
    (hfinal : place.final = s.place.final ∨ place.final = true ∧ s.channel = [] ∧ s.senders = false)
    (hu : State.unwritten { s with place := place } = s.unwritten)
    (hq : place.quiet = true → s.place.quiet = true) : Inv { s with place := place } where
  sent := hi.sent
  select h := absurd h hselect
  bounded h := by
    rcases hfinal with hfinal | ⟨hfinal, -⟩
    · exact hi.bounded (hfinal.symm.trans h)
    · exact absurd (hfinal.symm.trans h) (by decide)
  closed h := by
    rcases hfinal with hfinal | ⟨-, hclosed⟩
    · exact hi.closed (hfinal.symm.trans h)
    · exact hclosed
  written he := by
    rw [hu]
    exact hi.written he
  quiet he h := hi.quiet he (hq h)

theorem Inv.failed (hsent : s.sent = s.received ++ s.channel) (hselect : s.place = .select → s.buffer = [])
    (hbounded : s.place.final = false → s.buffer.length ≤ 5000)
    (hclosed : s.place.final = true → s.channel = [] ∧ s.senders = false) : Inv s.failed where
  sent := hsent
  select := hselect
  bounded := hbounded
  closed := hclosed
  written h := by cases h
  quiet h := by cases h

theorem unwritten_write {final : Bool} {i : Nat} {msg : AofMessage} (hp : s.place = .write final i)
    (hm : s.buffer[i]? = some msg) : s.unwritten = msg :: s.buffer.drop (i + 1) := by
  obtain ⟨hi, rfl⟩ := List.getElem?_eq_some_iff.mp hm
  simp only [State.unwritten, hp]
  exact List.drop_eq_getElem_cons hi

theorem step_inv (h : Step fsync s s') (hi : Inv s) : Inv s' := by
  have hfinal {place : Place} (hp : s.place = place) : s.place.final = place.final := congrArg Place.final hp
  cases h with
  | send msg hs =>
      refine ⟨?_, hi.select, hi.bounded, ?_, hi.written, hi.quiet⟩
      · simp [hi.sent]
      · intro hf
        exact absurd (hi.closed hf).2 (by simp [hs])
  | drop => exact ⟨hi.sent, hi.select, hi.bounded, fun hf => ⟨(hi.closed hf).1, rfl⟩, hi.written, hi.quiet⟩
  | recv msg rest hp hc =>
      apply hi.receive hc
      · simp only [State.unwritten, hp]
      · rw [hp]
        rfl
      · rw [hi.select hp]
        decide
  | closed hp hc hs =>
      apply hi.move .drain (by simp) (.inr ⟨rfl, hc, hs⟩)
      · simp only [State.unwritten, hp]
      · rw [hp]
        exact id
  | tick hp =>
      have hfile : (s.ticked fsync).file.file = s.file.file ∧ (s.ticked fsync).file.pending = s.file.pending := by
        rw [State.ticked]
        split <;> exact ⟨rfl, rfl⟩
      refine ⟨hi.sent, hi.select, hi.bounded, hi.closed, ?_, ?_⟩
      · rw [hfile.1, hfile.2]
        exact hi.written
      · rw [hfile.2]
        exact hi.quiet
  | tickFails hp hf => exact .failed hi.sent hi.select hi.bounded hi.closed
  | tryRecv msg rest hp hb hc =>
      apply hi.receive hc
      · simp only [State.unwritten, hp]
      · rw [hp]
        rfl
      · exact hb
  | tryRecvFails hp =>
      apply hi.move (.write false 0) (by simp) (.inl (hfinal hp).symm)
      · simp only [State.unwritten, hp, List.drop_zero]
      · simp [Place.quiet]
  | drain msg rest hp hc =>
      have := (hi.closed (hfinal hp)).1
      rw [hc] at this
      cases this
  | drained hp =>
      apply hi.move (.write true 0) (by simp) (.inl (hfinal hp).symm)
      · simp only [State.unwritten, hp, List.drop_zero]
      · simp [Place.quiet]
  | write final i msg passed hp hm =>
      refine ⟨hi.sent, by simp, fun h => hi.bounded ((hfinal hp).trans h),
        fun h => hi.closed ((hfinal hp).trans h), ?_, by simp [Place.quiet]⟩
      intro he
      obtain ⟨written, hreceived, hbytes⟩ := hi.written he
      rw [unwritten_write hp hm] at hreceived
      refine ⟨written ++ [msg], ?_, ?_⟩
      · simp [State.unwritten, hreceived]
      · rw [BufWriter.accept_bytes, hbytes]
        simp
  | writeFails final i msg taken passed hp hm =>
      exact .failed hi.sent (by simp) (fun h => hi.bounded ((hfinal hp).trans h))
        (fun h => hi.closed ((hfinal hp).trans h))
  | written final i hp hm =>
      apply hi.move (.flush final) (by simp) (.inl (hfinal hp).symm)
      · simp only [State.unwritten, hp]
        exact (List.drop_eq_nil_of_le (List.getElem?_eq_none_iff.mp hm)).symm
      · simp [Place.quiet]
  | flush final hp =>
      refine ⟨hi.sent, by simp, fun h => hi.bounded ((hfinal hp).trans h),
        fun h => hi.closed ((hfinal hp).trans h), ?_, fun _ _ => rfl⟩
      intro he
      obtain ⟨written, hreceived, hbytes⟩ := hi.written he
      simp only [State.unwritten, hp] at hreceived
      exact ⟨written, hreceived, by simpa [BufWriter.flush] using hbytes⟩
  | flushFails final passed hp =>
      exact .failed hi.sent (by simp) (fun h => hi.bounded ((hfinal hp).trans h))
        (fun h => hi.closed ((hfinal hp).trans h))
  | sync hp =>
      have hfile : (s.synced fsync).file.file = s.file.file ∧ (s.synced fsync).file.pending = s.file.pending := by
        rw [State.synced]
        split <;> exact ⟨rfl, rfl⟩
      refine ⟨hi.sent, fun _ => rfl, fun _ => Nat.zero_le _, by simp [State.synced, Place.final], ?_, ?_⟩
      · intro he
        obtain ⟨written, hreceived, hbytes⟩ := hi.written he
        simp only [State.unwritten, hp] at hreceived
        rw [hfile.1, hfile.2]
        exact ⟨written, hreceived, hbytes⟩
      · intro he _
        rw [hfile.2]
        exact hi.quiet he (by rw [hp]; rfl)
  | syncFails hp hf =>
      exact .failed hi.sent (fun _ => rfl) (fun _ => Nat.zero_le _) (by simp [Place.final])
  | lastSync hp =>
      refine ⟨hi.sent, by simp, by simp [Place.final], fun _ => hi.closed (hfinal hp), ?_, ?_⟩
      · intro he
        obtain ⟨written, hreceived, hbytes⟩ := hi.written he
        simp only [State.unwritten, hp] at hreceived
        exact ⟨written, hreceived, hbytes⟩
      · intro he _
        exact hi.quiet he (by rw [hp]; rfl)
  | lastSyncFails hp =>
      exact .failed hi.sent (by simp) (by simp [Place.final]) (fun _ => hi.closed (hfinal hp))

end Invariant

section Runs

variable {fsync : AofFsync} {s s' : State}

abbrev Reaches (fsync : AofFsync) : State → State → Prop := Relation.ReflTransGen (Step fsync)

theorem reaches_inv (h : Reaches fsync s s') (hi : Inv s) : Inv s' := by
  induction h with
  | refl => exact hi
  | tail _ hstep ih => exact step_inv hstep ih

theorem step_received (h : Step fsync s s') : s.received <+: s'.received ∧ s.errors ≤ s'.errors := by
  have hsame : s.received <+: s.received ∧ s.errors ≤ s.errors := ⟨List.prefix_rfl, le_rfl⟩
  have hfailed : s.received <+: s.received ∧ s.errors ≤ s.errors + 1 := ⟨List.prefix_rfl, Nat.le_succ _⟩
  cases h with
  | recv msg rest | tryRecv msg rest | drain msg rest => exact ⟨List.prefix_append _ _, le_rfl⟩
  | send | drop | closed | tick | tryRecvFails | drained | write | written | flush | sync | lastSync => exact hsame
  | tickFails | writeFails | flushFails | syncFails | lastSyncFails => exact hfailed

theorem reaches_received (h : Reaches fsync s s') : s.received <+: s'.received ∧ s.errors ≤ s'.errors := by
  induction h with
  | refl => exact ⟨List.prefix_rfl, le_rfl⟩
  | tail _ hstep ih =>
      obtain ⟨hlog, herrors⟩ := step_received hstep
      exact ⟨ih.1.trans hlog, ih.2.trans herrors⟩

/-- At the select the file has the messages received, and at the end the messages sent. -/
theorem Inv.file_eq (hi : Inv s) (he : s.errors = 0) (hp : s.place = .select ∨ s.place = .returned) :
    s.file.file = s.received.flatten := by
  obtain ⟨written, hreceived, hbytes⟩ := hi.written he
  have hquiet : s.file.pending = [] := hi.quiet he (by rcases hp with hp | hp <;> rw [hp] <;> rfl)
  have hnone : s.unwritten = [] := by
    rcases hp with hp | hp
    · simp only [State.unwritten, hp]
      exact hi.select hp
    · simp only [State.unwritten, hp]
  rw [hquiet, List.append_nil] at hbytes
  rw [hnone, List.append_nil] at hreceived
  rw [hbytes, hreceived]

/-- What is sent is in the file, in the writer, in the batch or in the channel. -/
theorem Inv.sent_flatten (hi : Inv s) (he : s.errors = 0) :
    s.file.file ++ s.file.pending ++ s.unwritten.flatten ++ s.channel.flatten = s.sent.flatten := by
  obtain ⟨written, hreceived, hbytes⟩ := hi.written he
  rw [hbytes, hi.sent, hreceived, List.flatten_append, List.flatten_append]

/-- How many steps the task can still make when nobody sends any more. -/
def State.weight (s : State) : Nat :=
  match s.place with
  | .select => 5 + 10 * s.channel.length
  | .batch => 9 + 10 * s.channel.length + s.buffer.length
  | .drain => 4 + 10 * s.channel.length + s.buffer.length
  | .write false i => 8 + 10 * s.channel.length + (s.buffer.length - i)
  | .flush false => 7 + 10 * s.channel.length
  | .sync false => 6 + 10 * s.channel.length
  | .write true i => 3 + (s.buffer.length - i)
  | .flush true => 2
  | .sync true => 1
  | .returned => 0

theorem step_onward (fsync : AofFsync) (hi : Inv s) (hs : s.senders = false) (hp : s.place ≠ .returned) :
    ∃ s', Step fsync s s' ∧ s'.weight < s.weight ∧ s'.senders = false ∧ s'.errors = s.errors := by
  cases hplace : s.place with
  | returned => exact absurd hplace hp
  | select =>
      cases hc : s.channel with
      | nil =>
          refine ⟨_, .closed s hplace hc hs, ?_, hs, rfl⟩
          simp [State.weight, hplace, hc, hi.select hplace]
      | cons msg rest =>
          refine ⟨_, .recv s msg rest hplace hc, ?_, hs, rfl⟩
          simp only [State.weight, State.receive, hplace, hc, hi.select hplace, List.nil_append, List.length_cons,
            List.length_nil]
          omega
  | batch =>
      refine ⟨_, .tryRecvFails s hplace, ?_, hs, rfl⟩
      simp only [State.weight, hplace]
      omega
  | drain =>
      refine ⟨_, .drained s hplace, ?_, hs, rfl⟩
      simp only [State.weight, hplace]
      omega
  | write final i =>
      cases hm : s.buffer[i]? with
      | none =>
          refine ⟨_, .written s final i hplace hm, ?_, hs, rfl⟩
          cases final <;> simp only [State.weight, hplace] <;> omega
      | some msg =>
          have hlt : i < s.buffer.length := (List.getElem?_eq_some_iff.mp hm).1
          refine ⟨_, .write s final i msg 0 hplace hm, ?_, hs, rfl⟩
          cases final <;> simp only [State.weight, hplace] <;> omega
  | flush final =>
      refine ⟨_, .flush s final hplace, ?_, hs, rfl⟩
      cases final <;> simp only [State.weight, hplace] <;> omega
  | sync final =>
      cases final with
      | false =>
          refine ⟨_, .sync s hplace, ?_, hs, rfl⟩
          simp only [State.weight, State.synced, hplace]
          omega
      | true =>
          refine ⟨_, .lastSync s hplace, ?_, hs, rfl⟩
          simp only [State.weight, hplace]
          omega

theorem reaches_returned (fsync : AofFsync) (hi : Inv s) (hs : s.senders = false) :
    ∃ s', Reaches fsync s s' ∧ s'.place = .returned ∧ s'.errors = s.errors := by
  induction hw : s.weight using Nat.strong_induction_on generalizing s with
  | _ n ih =>
      by_cases hp : s.place = .returned
      · exact ⟨s, .refl, hp, rfl⟩
      · obtain ⟨s₁, hstep, hless, hs₁, he₁⟩ := step_onward fsync hi hs hp
        obtain ⟨s₂, hreach, hp₂, he₂⟩ := ih s₁.weight (hw ▸ hless) (step_inv hstep hi) hs₁ rfl
        exact ⟨s₂, .head hstep hreach, hp₂, he₂.trans he₁⟩

/-- Whatever the senders and the clock do, without I/O errors the file gets every message
once and in order: at the select those received, and no others between one select and a
later one or the end, and at the end all that were sent. The end can always be reached. -/
theorem writer_exact (h : Reaches fsync .start s) (he : s.errors = 0) :
    s.file.file ++ s.file.pending ++ s.unwritten.flatten ++ s.channel.flatten = s.sent.flatten ∧
    (s.place = .select → s.file.file = s.received.flatten ∧ s.file.pending = [] ∧ s.buffer = []) ∧
    (s.place = .returned → s.file.file = s.sent.flatten) ∧
    (s.place = .select → ∀ s', Reaches fsync s s' → s'.errors = 0 → s'.place = .select ∨ s'.place = .returned →
      ∃ later, s'.received = s.received ++ later ∧ s'.file.file = s.file.file ++ later.flatten) ∧
    (∃ s', Reaches fsync s s' ∧ s'.place = .returned ∧ s'.errors = 0) := by
  have hi : Inv s := reaches_inv h inv_start
  refine ⟨hi.sent_flatten he, ?_, ?_, ?_, ?_⟩
  · intro hp
    exact ⟨hi.file_eq he (.inl hp), hi.quiet he (by rw [hp]; rfl), hi.select hp⟩
  · intro hp
    have hempty : s.channel = [] := (hi.closed (by rw [hp]; rfl)).1
    rw [hi.file_eq he (.inr hp), hi.sent, hempty, List.append_nil]
  · intro hp s' hreach he' hp'
    obtain ⟨later, hlater⟩ := (reaches_received hreach).1
    refine ⟨later, hlater.symm, ?_⟩
    rw [(reaches_inv hreach hi).file_eq he' hp', hi.file_eq he (.inl hp), ← hlater, List.flatten_append]
  · have hdrop := step_inv (.drop s : Step fsync s _) hi
    obtain ⟨s', hreach, hp', he'⟩ := reaches_returned fsync hdrop rfl
    exact ⟨s', .head (.drop s) hreach, hp', he'.trans he⟩

/-- Two messages, of which the second is there in time for the batch of the first. -/
def sampleEnd : State where
  sent := [[1], [2]]
  received := [[1], [2]]
  channel := []
  senders := false
  buffer := []
  file := ⟨[1, 2], [], [1, 2]⟩
  errors := 0
  place := .returned

theorem sampleEnd_reached : Reaches .always .start sampleEnd := by
  apply Relation.ReflTransGen.head (.send _ [1] rfl)
  apply Relation.ReflTransGen.head (.send _ [2] rfl)
  apply Relation.ReflTransGen.head (.recv _ [1] [[2]] rfl rfl)
  apply Relation.ReflTransGen.head (.tryRecv _ [2] [] rfl (by decide) rfl)
  apply Relation.ReflTransGen.head (.tryRecvFails _ rfl)
  apply Relation.ReflTransGen.head (.write _ false 0 [1] 0 rfl rfl)
  apply Relation.ReflTransGen.head (.write _ false 1 [2] 1 rfl rfl)
  apply Relation.ReflTransGen.head (.written _ false 2 rfl rfl)
  apply Relation.ReflTransGen.head (.flush _ false rfl)
  apply Relation.ReflTransGen.head (.sync _ rfl)
  apply Relation.ReflTransGen.head (.drop _)
  apply Relation.ReflTransGen.head (.closed _ rfl rfl rfl)
  apply Relation.ReflTransGen.head (.drained _ rfl)
  apply Relation.ReflTransGen.head (.written _ true 0 rfl rfl)
  apply Relation.ReflTransGen.head (.flush _ true rfl)
  exact Relation.ReflTransGen.single (.lastSync _ rfl)

theorem sampleEnd_exact : Reaches .always .start sampleEnd ∧ sampleEnd.file.file = sampleEnd.sent.flatten :=
  ⟨sampleEnd_reached, (writer_exact sampleEnd_reached rfl).2.2.1 rfl⟩

end Runs

end RustKv.AofWriter
