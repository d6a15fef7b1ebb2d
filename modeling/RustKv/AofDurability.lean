import RustKv.AofWriter

namespace RustKv.AofWriter

open Text

variable {fsync : AofFsync} {s s' : State}

/-- What a power failure may leave of the file: what is on the device for certain, and
some of what comes behind it. -/
def BufWriter.Survives (w : BufWriter) (p : Bytes) : Prop := w.synced <+: p ∧ p <+: w.file

theorem BufWriter.accept_file (w : BufWriter) (data : Bytes) (passed : Nat) :
    w.file <+: (w.accept data passed).file := List.prefix_append _ _

/-- The file only grows, and what is on the device stays there. -/
theorem step_synced (h : Step fsync s s') (hs : s.file.synced <+: s.file.file) :
    s.file.synced <+: s'.file.synced ∧ s'.file.synced <+: s'.file.file ∧ s.file.file <+: s'.file.file := by
  have hsame : s.file.synced <+: s.file.synced ∧ s.file.synced <+: s.file.file ∧
      s.file.file <+: s.file.file := ⟨List.prefix_rfl, hs, List.prefix_rfl⟩
  have hsynced : s.file.synced <+: s.file.file ∧ s.file.file <+: s.file.file ∧
      s.file.file <+: s.file.file := ⟨hs, List.prefix_rfl, List.prefix_rfl⟩
  cases h with
  | send | drop | recv | closed | tickFails | tryRecv | tryRecvFails | drain | drained | written
  | syncFails | lastSyncFails => exact hsame
  | tick hp =>
      rw [State.ticked]
      split
      · exact hsynced
      · exact hsame
  | sync hp =>
      rw [State.synced]
      split
      · exact hsynced
      · exact hsame
  | lastSync hp => exact hsynced
  | write final i msg passed hp hm =>
      have hfile := s.file.accept_file msg passed
      exact ⟨List.prefix_rfl, hs.trans hfile, hfile⟩
  | writeFails final i msg taken passed hp hm =>
      have hfile := s.file.accept_file (msg.take taken) passed
      exact ⟨List.prefix_rfl, hs.trans hfile, hfile⟩
  | flush final hp => exact ⟨List.prefix_rfl, hs.trans (List.prefix_append _ _), List.prefix_append _ _⟩
  | flushFails final passed hp =>
      have hfile := s.file.accept_file [] passed
      exact ⟨List.prefix_rfl, hs.trans hfile, hfile⟩

theorem reaches_synced (h : Reaches fsync s s') (hs : s.file.synced <+: s.file.file) :
    s.file.synced <+: s'.file.synced ∧ s'.file.synced <+: s'.file.file := by
  induction h with
  | refl => exact ⟨List.prefix_rfl, hs⟩
  | tail _ hstep ih =>
      obtain ⟨hsynced, hle, -⟩ := step_synced hstep ih.2
      exact ⟨ih.1.trans hsynced, hle⟩

/-- With Always, the records received are on the device but for the current batch. -/
structure Durable (fsync : AofFsync) (s : State) : Prop where
  batch : fsync = .always → s.errors = 0 → ∃ durable, s.received = durable ++ s.buffer ∧
    durable.flatten <+: s.file.synced
  returned : s.place = .returned → s.errors = 0 → s.file.synced = s.file.file

theorem durable_start (fsync : AofFsync) : Durable fsync .start where
  batch _ _ := ⟨[], rfl, List.nil_prefix⟩
  returned h := by cases h

theorem Durable.keep (h : Durable fsync s) (hreceived : s'.received = s.received)
    (hbuffer : s'.buffer = s.buffer) (hsynced : s.file.synced <+: s'.file.synced)
    (herrors : s.errors ≤ s'.errors)
    (hreturned : s'.place = .returned → s'.errors = 0 → s'.file.synced = s'.file.file) :
    Durable fsync s' := by
  refine ⟨fun hf he => ?_, hreturned⟩
  obtain ⟨durable, hrec, hbytes⟩ := h.batch hf (by omega)
  exact ⟨durable, by rw [hreceived, hbuffer, hrec], hbytes.trans hsynced⟩

theorem Durable.goOn (h : Durable fsync s) (hreceived : s'.received = s.received)
    (hbuffer : s'.buffer = s.buffer) (hsynced : s.file.synced <+: s'.file.synced)
    (herrors : s.errors ≤ s'.errors) (hplace : s'.place ≠ .returned) : Durable fsync s' :=
  h.keep hreceived hbuffer hsynced herrors (fun hret => absurd hret hplace)

theorem Durable.fail (h : Durable fsync s) (hreceived : s'.received = s.received)
    (hbuffer : s'.buffer = s.buffer) (hsynced : s.file.synced <+: s'.file.synced)
    (herrors : s'.errors = s.errors + 1) : Durable fsync s' :=
  h.keep hreceived hbuffer hsynced (herrors ▸ Nat.le_succ _)
    (fun _ he => absurd (herrors.symm.trans he) (Nat.succ_ne_zero _))

theorem Durable.receive (h : Durable fsync s) (msg : AofMessage) (rest : List AofMessage) {place : Place}
    (hplace : place ≠ .returned) : Durable fsync (s.receive msg rest place) := by
  refine ⟨fun hf he => ?_, fun hp => absurd hp hplace⟩
  obtain ⟨durable, hrec, hbytes⟩ := h.batch hf he
  refine ⟨durable, ?_, hbytes⟩
  simp [State.receive, hrec]

theorem step_durable (hstep : Step fsync s s') (hi : Inv s) (hs : s.file.synced <+: s.file.file)
    (h : Durable fsync s) : Durable fsync s' := by
  have hsynced := (step_synced hstep hs).1
  have herrors := (step_received hstep).2
  cases hstep with
  | recv msg rest | tryRecv msg rest | drain msg rest => exact h.receive msg rest (by simp)
  | send | drop => exact h.keep rfl rfl hsynced herrors h.returned
  | tick hp =>
      refine h.keep rfl rfl hsynced herrors (fun hret => ?_)
      rw [State.ticked, hp] at hret
      cases hret
  | tickFails hp hf | lastSyncFails hp => exact h.fail rfl rfl hsynced rfl
  | closed hp hc hs => exact h.goOn rfl rfl hsynced herrors (by simp)
  | tryRecvFails hp | drained hp => exact h.goOn rfl rfl hsynced herrors (by simp)
  | write final i msg passed hp hm => exact h.goOn rfl rfl hsynced herrors (by simp)
  | writeFails final i msg taken passed hp hm => exact h.fail rfl rfl hsynced rfl
  | written final i hp hm | flush final hp => exact h.goOn rfl rfl hsynced herrors (by simp)
  | flushFails final passed hp => exact h.fail rfl rfl hsynced rfl
  | sync hp =>
      refine ⟨fun hf he => ⟨s.received, (List.append_nil _).symm, ?_⟩, fun hret => by cases hret⟩
      -- the batch has been written and flushed
      obtain ⟨written, hrec, hbytes⟩ := hi.written he
      have hpending : s.file.pending = [] := hi.quiet he (by rw [hp]; rfl)
      simp only [State.unwritten, hp, List.append_nil] at hrec
      rw [hpending, List.append_nil] at hbytes
      simp only [State.synced, hf, if_true, BufWriter.syncData, hrec, hbytes]
      exact List.prefix_rfl
  | syncFails hp hf => exact ⟨fun _ he => absurd he (Nat.succ_ne_zero _), fun hret => by cases hret⟩
  | lastSync hp => exact h.keep rfl rfl hsynced herrors (fun _ _ => rfl)

theorem reaches_durable (h : Reaches fsync .start s) :
    Inv s ∧ s.file.synced <+: s.file.file ∧ Durable fsync s := by
  induction h with
  | refl => exact ⟨inv_start, List.prefix_rfl, durable_start fsync⟩
  | tail _ hstep ih =>
      obtain ⟨hi, hs, hd⟩ := ih
      exact ⟨step_inv hstep hi, (step_synced hstep hs).2.1, step_durable hstep hi hs hd⟩

/-- What survives a power failure, in any state of the writer and when no I/O error has
occurred. It is a prefix of the messages sent. With Always all that is lost is messages in
the channel and in the current batch; with EverySec nothing is lost that was received
before the last tick; and nothing at all once the task has returned, with any setting.
What a failure would have left, any later one leaves too. -/
theorem survives_power_failure (h : Reaches fsync .start s) (he : s.errors = 0) {p : Bytes}
    (hp : s.file.Survives p) :
    p <+: s.sent.flatten ∧
    (fsync = .always → ∃ durable, s.sent = durable ++ s.buffer ++ s.channel ∧ durable.flatten <+: p ∧
      (s.place.final = false → s.buffer.length ≤ 5000)) ∧
    (s.place = .returned → p = s.sent.flatten) ∧
    (fsync = .everySec → s.place = .select → ∀ s', Reaches fsync (s.ticked fsync) s' →
      ∀ p', s'.file.Survives p' → s.received.flatten <+: p') ∧
    (∀ s', Reaches fsync s s' → ∀ p', s'.file.Survives p' → s.file.synced <+: p') := by
  obtain ⟨hi, hsynced, hdurable⟩ := reaches_durable h
  obtain ⟨hle, hge⟩ := hp
  refine ⟨?_, ?_, ?_, ?_, ?_⟩
  · rw [← hi.sent_flatten he, List.append_assoc, List.append_assoc]
    exact hge.trans (List.prefix_append _ _)
  · intro hf
    obtain ⟨durable, hrec, hbytes⟩ := hdurable.batch hf he
    exact ⟨durable, by rw [hi.sent, hrec], hbytes.trans hle, hi.bounded⟩
  · intro hret
    have hall := hdurable.returned hret he
    have hfile := ((writer_exact h he).2.2.1 hret)
    rw [hall] at hle
    rw [← hfile]
    exact hge.eq_of_length_le hle.length_le
  · intro hf hsel s' hreach p' hp'
    have hnow : (s.ticked fsync).file.synced = s.received.flatten := by
      rw [State.ticked, if_pos hf]
      exact hi.file_eq he (.inl hsel)
    have htick := step_synced (.tick s hsel : Step fsync s _) hsynced
    rw [← hnow]
    exact (reaches_synced hreach htick.2.1).1.trans hp'.1
  · intro s' hreach p' hp'
    exact (reaches_synced hreach hsynced).1.trans hp'.1

theorem survives_power_failure_sample :
    sampleEnd.file.Survives [1, 2] ∧ ([1, 2] : Bytes) = sampleEnd.sent.flatten := by
  have hp : sampleEnd.file.Survives [1, 2] := ⟨List.prefix_rfl, List.prefix_rfl⟩
  exact ⟨hp, (survives_power_failure sampleEnd_reached rfl hp).2.2.1 rfl⟩

end RustKv.AofWriter
