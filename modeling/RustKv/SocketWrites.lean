import RustKv.Connection

namespace RustKv.Connection

open Text Protocol Domain FrameParser CommandParser

section Writes

/-- How a write_all ends. It is pending while a write has not returned. -/
inductive Sent
  | done
  | failed
  | pending
  deriving DecidableEq, Repr

abbrev WriteOutcome := Option Nat

/-- The write_all of the socket: the bytes it has taken, and the outcomes left. No byte
taken is an error. -/
def writeAll : List WriteOutcome → Bytes → Sent × Bytes × List WriteOutcome
  | outcomes, [] => (.done, [], outcomes)
  | [], _ => (.pending, [], [])
  | none :: outcomes, _ => (.failed, [], outcomes)
  | some n :: outcomes, buf =>
      if n = 0 then (.failed, [], outcomes)
      else
        let (sent, taken, outcomes) := writeAll outcomes (buf.drop n)
        (sent, buf.take n ++ taken, outcomes)

/-- Drops the slices that were taken whole, and the part taken of the next. None is the
panic of advancing beyond the last. -/
def advanceSlices : List Bytes → Nat → Option (List Bytes)
  | [], left => if left = 0 then some [] else none
  | buf :: bufs, left =>
      if buf.length ≤ left then advanceSlices bufs (left - buf.length)
      else some (buf.drop left :: bufs)

def writeAllVectored : List WriteOutcome → List Bytes → Option (Sent × Bytes × List WriteOutcome)
  | outcomes, [] => some (.done, [], outcomes)
  | [], _ => some (.pending, [], [])
  | none :: outcomes, _ => some (.failed, [], outcomes)
  | some n :: outcomes, slices => do
      let written := min n slices.flatten.length
      if written = 0 then some (.failed, [], outcomes)
      else
        let rest ← advanceSlices slices written
        let (sent, taken, outcomes) ← writeAllVectored outcomes rest
        some (sent, slices.flatten.take written ++ taken, outcomes)

/-- A single reply is sent as it is, several with vectored writes. -/
def sendReplies (outcomes : List WriteOutcome) : List Bytes → Option (Sent × Bytes × List WriteOutcome)
  | [] => some (.done, [], outcomes)
  | [reply] => some (writeAll outcomes reply)
  | replies => writeAllVectored outcomes replies

theorem writeAll_nil (outcomes : List WriteOutcome) : writeAll outcomes [] = (.done, [], outcomes) := by
  cases outcomes <;> rfl

theorem advanceSlices_spec (slices : List Bytes) {n : Nat} (h : n ≤ slices.flatten.length) :
    ∃ rest, advanceSlices slices n = some rest ∧ rest.flatten = slices.flatten.drop n ∧
      (rest.flatten = [] → rest = []) := by
  induction slices generalizing n with
  | nil =>
      have hzero : n = 0 := Nat.le_zero.mp h
      exact ⟨[], by simp [advanceSlices, hzero], by simp, fun _ => rfl⟩
  | cons buf bufs ih =>
      rw [List.flatten_cons, List.length_append] at h
      rw [advanceSlices]
      by_cases hle : buf.length ≤ n
      · obtain ⟨rest, hrest, hflat, hempty⟩ := ih (n := n - buf.length) (by omega)
        refine ⟨rest, by rw [if_pos hle, hrest], ?_, hempty⟩
        rw [hflat, List.flatten_cons, List.drop_append, List.drop_eq_nil_of_le hle, List.nil_append]
      · refine ⟨_, if_neg hle, ?_, ?_⟩
        · rw [List.flatten_cons, List.flatten_cons, List.drop_append_of_le_length (by omega)]
        · intro hnil
          have hdrop := (List.append_eq_nil_iff.mp hnil).1
          exact absurd (List.drop_eq_nil_iff.mp hdrop) hle

/-- Vectored writes do what one write of all the bytes would do. -/
theorem writeAllVectored_eq (outcomes : List WriteOutcome) (slices : List Bytes)
    (h : slices.flatten = [] → slices = []) :
    writeAllVectored outcomes slices = some (writeAll outcomes slices.flatten) := by
  induction outcomes generalizing slices with
  | nil =>
      cases hs : slices.flatten with
      | nil => rw [h hs, writeAllVectored, writeAll]
      | cons b bs =>
          have hne : slices ≠ [] := by
            rintro rfl
            cases hs
          rw [writeAllVectored, writeAll]
          · exact List.cons_ne_nil b bs
          · exact hne
  | cons outcome outcomes ih =>
      cases hs : slices.flatten with
      | nil => rw [h hs, writeAllVectored, writeAll]
      | cons b bs =>
          have hne : slices ≠ [] := by
            rintro rfl
            cases hs
          cases outcome with
          | none =>
              rw [writeAllVectored, writeAll]
              · exact List.cons_ne_nil b bs
              · exact hne
          | some n =>
              have hlen : 0 < slices.flatten.length := by rw [hs]; exact Nat.succ_pos _
              rw [writeAllVectored, writeAll, ← hs]
              · by_cases hn : n = 0
                · simp [hn]
                · obtain ⟨rest, hrest, hflat, hempty⟩ :=
                    advanceSlices_spec slices (Nat.min_le_right n slices.flatten.length)
                  have hdrop : slices.flatten.drop n = slices.flatten.drop (min n slices.flatten.length) :=
                    List.drop_eq_drop_min
                  have htake : slices.flatten.take n = slices.flatten.take (min n slices.flatten.length) :=
                    List.take_eq_take_min
                  rw [if_neg hn, if_neg (by omega)]
                  simp only [hrest, ih rest hempty, Option.bind_eq_bind, Option.bind_some, hflat, hdrop, htake]
              · exact List.cons_ne_nil b bs
              · exact hne

theorem sendReplies_eq (outcomes : List WriteOutcome) (replies : List Bytes) (h : ∀ r ∈ replies, r ≠ []) :
    sendReplies outcomes replies = some (writeAll outcomes replies.flatten) := by
  match replies with
  | [] => rw [sendReplies, List.flatten_nil, writeAll_nil]
  | [reply] => rw [sendReplies, List.flatten_singleton]
  | first :: second :: rest =>
      rw [sendReplies]
      · apply writeAllVectored_eq
        intro hflat
        exact absurd (List.flatten_eq_nil_iff.mp hflat first List.mem_cons_self) (h first List.mem_cons_self)
      · exact fun hnil => List.cons_ne_nil _ _ hnil
      · exact fun reply hreply => List.cons_ne_nil second rest (List.cons.inj hreply).2

theorem writeAll_sent (outcomes : List WriteOutcome) (buf : Bytes) :
    (writeAll outcomes buf).2.1 <+: buf ∧
      ((writeAll outcomes buf).1 = .done ↔ (writeAll outcomes buf).2.1 = buf) := by
  fun_induction writeAll outcomes buf with
  | case1 => simp
  | case2 buf hne => simpa using fun h => hne h
  | case3 outcomes buf hne => simpa using fun h => hne h
  | case4 outcomes buf hne => simpa using fun h => hne h
  | case5 n outcomes buf hne hn sent taken rest hrest ih =>
      rw [hrest] at ih
      obtain ⟨hfront, hdone⟩ := ih
      refine ⟨?_, ?_⟩
      · conv_rhs => rw [← List.take_append_drop n buf]
        exact (List.prefix_append_right_inj _).mpr hfront
      · rw [hdone]
        conv_rhs => rhs; rw [← List.take_append_drop n buf]
        exact (List.append_cancel_left_eq _ _ _).symm.to_iff

theorem writeAll_done (outcomes : List WriteOutcome) (buf : Bytes)
    (hoks : ∀ o ∈ outcomes, ∃ n, o = some (n + 1)) (hmany : buf.length ≤ outcomes.length) :
    (writeAll outcomes buf).1 = .done ∧
      ∃ used, outcomes = used ++ (writeAll outcomes buf).2.2 ∧ used.length ≤ buf.length := by
  induction outcomes generalizing buf with
  | nil =>
      rw [List.length_eq_zero_iff.mp (Nat.le_zero.mp hmany), writeAll_nil]
      exact ⟨rfl, [], rfl, Nat.le_refl _⟩
  | cons outcome outcomes ih =>
      cases buf with
      | nil => exact ⟨rfl, [], rfl, Nat.le_refl _⟩
      | cons b bs =>
          obtain ⟨n, rfl⟩ := hoks outcome List.mem_cons_self
          have hlen : (bs.drop n).length ≤ outcomes.length := by
            simp only [List.length_drop, List.length_cons] at hmany ⊢
            omega
          obtain ⟨hdone, used, hused, hle⟩ :=
            ih (bs.drop n) (fun o ho => hoks o (List.mem_cons_of_mem _ ho)) hlen
          rw [writeAll, if_neg (Nat.succ_ne_zero n)]
          refine ⟨hdone, some (n + 1) :: used, congrArg _ hused, ?_⟩
          · simp only [List.length_drop, List.length_cons] at hle ⊢
            omega
          · exact List.cons_ne_nil b bs

end Writes

section Serve

variable {W S : Type} [Host] [F64 S]

theorem explainLoop_replies (exec : W → Command S → Except KvError Frame × W) (buf : Bytes) (fuel : Nat)
    (b : Batch W S) (hb : ∀ r ∈ b.vecResult, r ≠ []) {result : List Bytes} {rest : Bytes} {b' : Batch W S}
    (h : explainLoop exec buf fuel b = (.ok result, rest, b')) : ∀ r ∈ result, r ≠ [] := by
  induction fuel generalizing b with
  | zero =>
      cases h
      exact hb
  | succ fuel ih =>
      rw [explainLoop] at h
      split at h
      · split at h
        · split at h
          · refine ih _ (fun r hr => ?_) h
            rcases List.mem_append.mp hr with hr | hr
            · exact hb r hr
            · rw [List.mem_singleton.mp hr]
              exact serialize_ne_nil _
          · cases h
        · cases h
      · cases h
        exact hb
      · cases h

theorem handle_written (exec : W → Command S → Except KvError Frame × W) (c : Conn W S)
    (event : ConnectionEvent) :
    ∃ replies, (c.handle exec event).written = c.written ++ replies ∧ ∀ r ∈ replies, r ≠ [] := by
  cases event with
  | shutdown => exact ⟨[], (List.append_nil _).symm, by simp⟩
  | clientClosed => exact ⟨[], (List.append_nil _).symm, by simp⟩
  | gotData chunk =>
      rw [Conn.handle]
      by_cases hpsync : isPsyncRequest (c.buf ++ chunk)
      · simp only [hpsync, if_true]
        exact ⟨[], (List.append_nil _).symm, by simp⟩
      · simp only [hpsync, Bool.false_eq_true, if_false]
        split
        next result buf b hresult =>
          exact ⟨result, rfl, explainLoop_replies exec _ _ _ (by simp) hresult⟩
        next e buf b _ =>
          refine ⟨[errorReply e], rfl, fun r hr => ?_⟩
          rw [List.mem_singleton.mp hr]
          exact serialize_ne_nil _

theorem handleConnection_serving (exec : W → Command S → Except KvError Frame × W) {c : Conn W S}
    (hphase : c.phase = .serving) (event : ConnectionEvent) (events : List ConnectionEvent) :
    handleConnection exec c (event :: events) = handleConnection exec (c.handle exec event) events := by
  rw [handleConnection, hphase]

theorem handleConnection_stopped (exec : W → Command S → Except KvError Frame × W) {c : Conn W S}
    (hphase : c.phase ≠ .serving) (events : List ConnectionEvent) : handleConnection exec c events = c := by
  cases events with
  | nil => rfl
  | cons event events =>
      rw [handleConnection]
      split
      next h => exact absurd h hphase
      next => rfl

theorem handleConnection_written (exec : W → Command S → Except KvError Frame × W) (c : Conn W S)
    (events : List ConnectionEvent) :
    ∃ replies, (handleConnection exec c events).written = c.written ++ replies := by
  induction events generalizing c with
  | nil => exact ⟨[], (List.append_nil _).symm⟩
  | cons event events ih =>
      by_cases hphase : c.phase = .serving
      · obtain ⟨first, hfirst, -⟩ := handle_written exec c event
        obtain ⟨more, hmore⟩ := ih (c.handle exec event)
        refine ⟨first ++ more, ?_⟩
        rw [handleConnection_serving exec hphase, hmore, hfirst, List.append_assoc]
      · rw [handleConnection_stopped exec hphase]
        exact ⟨[], (List.append_nil _).symm⟩

/-- The connection loop on a socket: each round sends its replies before the next event is
waited for, and an error of the socket ends the loop. The bytes are those the socket took. -/
def serveSocket (exec : W → Command S → Except KvError Frame × W) :
    Conn W S → List WriteOutcome → List ConnectionEvent → Option (Sent × Bytes × Conn W S)
  | c, _, [] => some (.done, [], c)
  | c, outcomes, event :: events =>
      match c.phase with
      | .serving => do
          let next := c.handle exec event
          let (sent, taken, outcomes) ← sendReplies outcomes (next.written.drop c.written.length)
          if sent = .done then
            let (sent, more, last) ← serveSocket exec next outcomes events
            some (sent, taken ++ more, last)
          else some (sent, taken, next)
      | _ => some (.done, [], c)

structure Served (exec : W → Command S → Except KvError Frame × W) (c : Conn W S)
    (outcomes : List WriteOutcome) (events : List ConnectionEvent) (sent : Sent) (taken : Bytes)
    (last : Conn W S) : Prop where
  handled : ∃ k, k ≤ events.length ∧ last = handleConnection exec c (events.take k)
  bytes : taken <+: (last.written.drop c.written.length).flatten
  all : sent = .done → last = handleConnection exec c events ∧
    taken = (last.written.drop c.written.length).flatten
  short : sent ≠ .done → taken ≠ (last.written.drop c.written.length).flatten
  live : (∀ o ∈ outcomes, ∃ n, o = some (n + 1)) →
    ((handleConnection exec c events).written.drop c.written.length).flatten.length ≤ outcomes.length →
    sent = .done

theorem served_stopped (exec : W → Command S → Except KvError Frame × W) (c : Conn W S)
    (outcomes : List WriteOutcome) {events : List ConnectionEvent}
    (h : handleConnection exec c events = c) : Served exec c outcomes events .done [] c where
  handled := ⟨0, Nat.zero_le _, rfl⟩
  bytes := List.nil_prefix
  all _ := ⟨h.symm, by simp⟩
  short hne := absurd rfl hne
  live _ _ := rfl

section Rounds

variable {exec : W → Command S → Except KvError Frame × W} {c : Conn W S} {event : ConnectionEvent}
  {events : List ConnectionEvent} {outcomes left : List WriteOutcome} {replies : List Bytes} {sent : Sent}
  {taken : Bytes}

theorem written_round (hphase : c.phase = .serving)
    (hreplies : (c.handle exec event).written = c.written ++ replies) :
    ((handleConnection exec c (event :: events)).written.drop c.written.length).flatten =
      replies.flatten ++ ((handleConnection exec (c.handle exec event) events).written.drop
        (c.handle exec event).written.length).flatten := by
  obtain ⟨all, hall⟩ := handleConnection_written exec (c.handle exec event) events
  rw [handleConnection_serving exec hphase, hall, List.drop_left, hreplies, List.append_assoc, List.drop_left,
    List.flatten_append]

theorem served_short (hphase : c.phase = .serving)
    (hreplies : (c.handle exec event).written = c.written ++ replies)
    (hwrite : writeAll outcomes replies.flatten = (sent, taken, left)) (hsent : sent ≠ .done) :
    Served exec c outcomes (event :: events) sent taken (c.handle exec event) := by
  have hdrop : (c.handle exec event).written.drop c.written.length = replies := by rw [hreplies, List.drop_left]
  obtain ⟨hfront, hiff⟩ := writeAll_sent outcomes replies.flatten
  have hlive := writeAll_done outcomes replies.flatten
  rw [hwrite] at hfront hiff hlive
  refine ⟨⟨1, by simp, ?_⟩, ?_, fun hdone => absurd hdone hsent, fun _ heq => ?_, fun hoks hmany => ?_⟩
  · rw [List.take_succ_cons, handleConnection_serving exec hphase, List.take_zero]
    rfl
  · rw [hdrop]
    exact hfront
  · rw [hdrop] at heq
    exact hsent (hiff.mpr heq)
  · rw [written_round hphase hreplies, List.length_append] at hmany
    exact (hlive hoks (by omega)).1

theorem Served.round {sent' : Sent} {more : Bytes} {last : Conn W S} (hphase : c.phase = .serving)
    (hreplies : (c.handle exec event).written = c.written ++ replies)
    (hwrite : writeAll outcomes replies.flatten = (sent, taken, left)) (hsent : sent = .done)
    (h : Served exec (c.handle exec event) left events sent' more last) :
    Served exec c outcomes (event :: events) sent' (taken ++ more) last := by
  have hiff := (writeAll_sent outcomes replies.flatten).2
  have hlive := writeAll_done outcomes replies.flatten
  rw [hwrite] at hiff hlive
  have htaken : taken = replies.flatten := hiff.mp hsent
  obtain ⟨k, hk, hlast⟩ := h.handled
  have hround : last = handleConnection exec c (event :: events.take k) := by
    rw [handleConnection_serving exec hphase, hlast]
  have hboth : (last.written.drop c.written.length).flatten =
      taken ++ (last.written.drop (c.handle exec event).written.length).flatten := by
    rw [hround, written_round hphase hreplies, ← handleConnection_serving exec hphase, htaken]
  refine ⟨⟨k + 1, Nat.succ_le_succ hk, hround⟩, ?_, fun hdone => ?_, fun hnot heq => ?_, fun hoks hmany => ?_⟩
  · rw [hboth]
    exact (List.prefix_append_right_inj _).mpr h.bytes
  · obtain ⟨hend, hbytes⟩ := h.all hdone
    rw [handleConnection_serving exec hphase, hboth, ← hbytes]
    exact ⟨hend, rfl⟩
  · rw [hboth] at heq
    exact h.short hnot (List.append_cancel_left heq)
  · rw [written_round hphase hreplies, List.length_append] at hmany
    obtain ⟨-, used, hused, hle⟩ := hlive hoks (by omega)
    rw [hused] at hoks
    refine h.live (fun o ho => hoks o (List.mem_append_right used ho)) ?_
    rw [hused, List.length_append] at hmany
    simp only at hmany
    omega

end Rounds

/-- Over a socket that takes as much as it likes at each write, and may fail or keep a write
waiting: the slices never run out in the middle of a write, and the client gets a prefix of
the replies to the events handled so far, all of them exactly when no write has failed or
waits. If each write takes a byte at least, and there are enough of them, everything is
sent. -/
theorem serveSocket_sends (exec : W → Command S → Except KvError Frame × W) (c : Conn W S)
    (outcomes : List WriteOutcome) (events : List ConnectionEvent) :
    ∃ sent taken last, serveSocket exec c outcomes events = some (sent, taken, last) ∧
      Served exec c outcomes events sent taken last := by
  induction events generalizing c outcomes with
  | nil => exact ⟨.done, [], c, by rw [serveSocket], served_stopped exec c outcomes rfl⟩
  | cons event events ih =>
      by_cases hphase : c.phase = .serving
      · obtain ⟨replies, hreplies, hne⟩ := handle_written exec c event
        have hdrop : (c.handle exec event).written.drop c.written.length = replies := by
          rw [hreplies, List.drop_left]
        cases hwrite : writeAll outcomes replies.flatten with
        | mk sent rest =>
            obtain ⟨taken, left⟩ := rest
            have hsend := (sendReplies_eq outcomes replies hne).trans (congrArg some hwrite)
            by_cases hsent : sent = .done
            · obtain ⟨sent', more, last, hrest, hserved⟩ := ih (c.handle exec event) left
              refine ⟨sent', taken ++ more, last, ?_, hserved.round hphase hreplies hwrite hsent⟩
              simp [serveSocket, hphase, hdrop, hsend, hsent, hrest]
            · refine ⟨sent, taken, c.handle exec event, ?_, served_short hphase hreplies hwrite hsent⟩
              simp [serveSocket, hphase, hdrop, hsend, hsent]
      · have hstop := handleConnection_stopped exec hphase (event :: events)
        refine ⟨.done, [], c, ?_, served_stopped exec c outcomes hstop⟩
        rw [serveSocket]
        split
        next h => exact absurd h hphase
        next => rfl

end Serve

section Alike

variable {W W' S : Type} [Host] [F64 S]

/-- Two ways to execute commands that give the same replies to the commands in `Q`, when
`bound` is not reached. `R` says which states correspond after so many commands. -/
structure Alike (Q : Command S → Prop) (R : Nat → W → W' → Prop) (bound : Nat)
    (exec : W → Command S → Except KvError Frame × W)
    (exec' : W' → Command S → Except KvError Frame × W') : Prop where
  step : ∀ {n w w' c}, R n w w' → Q c → n < bound →
    (exec w c).1 = (exec' w' c).1 ∧ R (n + 1) (exec w c).2 (exec' w' c).2

structure Batch.Same (R : Nat → W → W' → Prop) (start : Nat) (b : Batch W S) (b' : Batch W' S) : Prop where
  vec : b.vec = b'.vec
  totalSize : b.totalSize = b'.totalSize
  vecResult : b.vecResult = b'.vecResult
  executed : b.executed = b'.executed
  state : R (start + b'.executed.length) b.state b'.state

structure Conn.Same (R : Nat → W → W' → Prop) (c : Conn W S) (c' : Conn W' S) : Prop where
  buf : c.buf = c'.buf
  executed : c.executed = c'.executed
  written : c.written = c'.written
  phase : c.phase = c'.phase
  state : R c'.executed.length c.state c'.state

variable {Q : Command S → Prop} {R : Nat → W → W' → Prop} {bound start : Nat}
  {exec : W → Command S → Except KvError Frame × W} {exec' : W' → Command S → Except KvError Frame × W'}

omit [Host] [F64 S] in
theorem Batch.Same.executes {b : Batch W S} {b' : Batch W' S} (h : Alike Q R bound exec exec')
    (hb : b.Same R start b') {command : Command S} {executed : List (Command S)}
    (hfront : b'.executed ++ [command] <+: executed) (hQ : ∀ c ∈ executed, Q c)
    (hbound : start + executed.length ≤ bound) :
    (exec b.state command).1 = (exec' b'.state command).1 ∧
      R (start + (b'.executed ++ [command]).length) (exec b.state command).2 (exec' b'.state command).2 := by
  have hlength := hfront.length_le
  rw [List.length_append, List.length_singleton] at hlength ⊢
  exact h.step (n := start + b'.executed.length) hb.state (hQ command (hfront.subset (by simp))) (by omega)

end Alike

end RustKv.Connection
