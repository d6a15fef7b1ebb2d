import RustKv.RecoveryReads
import RustKv.LogicalStep

namespace RustKv.Recovery

open Text Pieces Protocol Domain FrameParser FrameRoundTrip CommandParser AofRoundTrip RequestReading Zset
  RustKv.Types Executor

section Cut

variable {S J : Type} [Host] [F64 S] [SerdeJson J] {rts : Nat → Runtime} {db : Db (Value S J)}
  {r r' : Recovered S J}

theorem LogRecord.frames_ne_nil {rec : LogRecord S} (hw : rec.Written) : rec.frames ≠ [] := by
  cases rec with
  | single now c =>
      obtain ⟨f, hf⟩ := Option.isSome_iff_exists.mp hw.2
      simp [LogRecord.frames, hf]
  | group now cmds => simp [LogRecord.frames]

/-- Where a log can be cut: after complete records, after complete frames of the
next one, inside its next frame. -/
structure CutAt (records done rest : List (LogRecord S)) (part : List Frame) (t p : Bytes) : Prop where
  split : records = done ++ rest
  bytes : p = serializeAll (done.flatMap LogRecord.frames ++ part) ++ t
  frames : (rest = [] ∧ part = [] ∧ t = []) ∨ ∃ rec rest' f hs, rest = rec :: rest' ∧
    rec.frames = part ++ f :: hs ∧ t <+: serialize f ∧ t ≠ serialize f
  records : Contained LogRecord.bytes records done p

theorem exists_cutAt {records : List (LogRecord S)} (hw : ∀ rec ∈ records, rec.Written) {p : Bytes}
    (hp : p <+: log records) : ∃ done rest part t, CutAt records done rest part t p := by
  have hne : ∀ rec ∈ records, rec.bytes ≠ [] := by
    intro rec hrec hnil
    rw [LogRecord.bytes_eq (hw rec hrec)] at hnil
    exact LogRecord.frames_ne_nil (hw rec hrec) (serializeAll_eq_nil hnil)
  obtain ⟨done, rest, t, rfl, rfl, ht⟩ := prefix_flatMap hne hp
  have hdone : done.flatMap LogRecord.bytes = serializeAll (done.flatMap LogRecord.frames) :=
    log_eq (fun rec hrec => hw rec (List.mem_append_left rest hrec))
  have hcontained : Contained LogRecord.bytes (done ++ rest) done _ := contained_of_cut ht
  rcases ht with ⟨rfl, rfl⟩ | ⟨rec, rest', rfl, hpre, hstrict⟩
  · exact ⟨done, [], [], [], rfl, by simp [hdone], .inl ⟨rfl, rfl, rfl⟩, hcontained⟩
  · rw [LogRecord.bytes_eq (hw rec (by simp)), serializeAll_eq_flatMap] at hpre hstrict
    obtain ⟨part, hs, u, hframes, rfl, hu⟩ := prefix_flatMap (fun f _ => serialize_ne_nil f) hpre
    rcases hu with ⟨rfl, rfl⟩ | ⟨f, hs', rfl, hu⟩
    · rw [hframes, List.append_nil, List.append_nil] at hstrict
      exact absurd rfl hstrict
    · refine ⟨done, rec :: rest', part, u, rfl, ?_, .inr ⟨rec, rest', f, hs', rfl, hframes, hu⟩,
        hcontained⟩
      rw [hdone, serializeAll_append, serializeAll_eq_flatMap part, List.append_assoc]

omit [Host] in
theorem CutAt.remaining {records done rest : List (LogRecord S)} {part : List Frame} {t p : Bytes}
    (h : CutAt records done rest part t p) : ∃ hs, records.flatMap LogRecord.frames =
      (done.flatMap LogRecord.frames ++ part) ++ hs ∧ Cut serialize hs t := by
  rw [h.split, List.flatMap_append]
  rcases h.frames with ⟨rfl, rfl, rfl⟩ | ⟨rec, rest', f, hs, rfl, hframes, ht⟩
  · exact ⟨[], by simp, .inl ⟨rfl, rfl⟩⟩
  · refine ⟨f :: hs ++ rest'.flatMap LogRecord.frames, ?_, .inr ⟨f, _, rfl, ht⟩⟩
    rw [List.flatMap_cons, hframes]
    simp

theorem explain_atOnce {capacity : Nat} {gs : List Frame} (hfit : ∀ f ∈ gs, Fits f) {t : Bytes}
    (ht : t = [] ∨ parseFrame t = .ok none) (hpos : 0 < capacity)
    (hcap : (serializeAll gs ++ t).length ≤ capacity) :
    explainExecuteAofcommand rts capacity (serializeAll gs ++ t) (atOnce (serializeAll gs ++ t)) db =
      match replayFrames rts (start db) gs with
      | .ok r =>
          if gs = [] ∧ t ≠ [] then some (.error (.text "字符串文件过大 大于512M"))
          else some (.ok (r, serializeAll gs))
      | .error e => some (.error e) := by
  have hzero : ¬ 0 = capacity := by omega
  by_cases hp : serializeAll gs ++ t = []
  · obtain ⟨hgs, rfl⟩ := List.append_eq_nil_iff.mp hp
    rw [serializeAll_eq_nil hgs]
    simp [explainExecuteAofcommand, atOnce, readLoop, serializeAll, replayFrames, hzero]
  · have hlen := List.length_pos_iff.mpr hp
    have hd := drain_frames rts hfit ht (start db) (serializeAll gs ++ t).length 0 (le_refl _)
    have hread : 0 < (serializeAll gs ++ t).length ∧ (serializeAll gs ++ t).length ≤ capacity - 0 ∧
        (serializeAll gs ++ t).length ≤ (serializeAll gs ++ t).length := ⟨hlen, hcap, le_refl _⟩
    simp only [explainExecuteAofcommand, atOnce, hp, if_false, readLoop, List.length_nil, hzero, hread,
      and_self, if_true, List.nil_append, List.take_length, List.drop_length, hd]
    cases replayFrames rts (start db) gs with
    | error e => rfl
    | ok r =>
        by_cases h0 : t = []
        · subst h0
          simp
        · have hgs : 0 + gs.length = 0 ↔ gs = [] := by rw [Nat.zero_add, List.length_eq_zero_iff]
          simp only [h0, if_false, hgs, ne_eq, not_false_eq_true, and_true]
          by_cases hg : gs = []
          · simp [hg]
          · have hfull : ¬ t.length = capacity := by
              obtain ⟨f, fs, rfl⟩ := List.exists_cons_of_ne_nil hg
              have := serialize_length_pos f
              rw [serializeAll, List.length_append, List.length_append] at hcap
              omega
            have htpos := List.length_pos_iff.mpr h0
            simp [hg, hfull, htpos]

/-- What a recovery that succeeds has read from a torn log. -/
theorem recovered_cut {records done rest : List (LogRecord S)} (hw : ∀ rec ∈ records, rec.Written)
    {part : List Frame} {t p : Bytes} (hcut : CutAt records done rest part t p) {capacity : Nat}
    (hpos : 0 < capacity) (hcap : p.length ≤ capacity) {file : Bytes}
    (h : explainExecuteAofcommand rts capacity p (atOnce p) db = some (.ok (r, file))) :
    file = serializeAll (done.flatMap LogRecord.frames ++ part) ∧
      replayFrames rts (start db) (done.flatMap LogRecord.frames ++ part) = .ok r := by
  obtain ⟨hs, hall, ht⟩ := hcut.remaining
  have hfit := frames_fit hw
  rw [hall] at hfit
  have hparse := parseFrame_cut (fun f hf => hfit f (List.mem_append_right _ hf)) ht
  rw [hcut.bytes] at h hcap
  rw [explain_atOnce (fun f hf => hfit f (List.mem_append_left hs hf)) hparse hpos hcap] at h
  cases hr : replayFrames rts (start db) (done.flatMap LogRecord.frames ++ part) with
  | error e => simp [hr] at h
  | ok r₁ =>
      simp only [hr] at h
      split at h <;> cases h
      exact ⟨rfl, rfl⟩

omit [Host] in
theorem CutAt.contained {records done rest : List (LogRecord S)} {part : List Frame} {t p : Bytes}
    (h : CutAt records done rest part t p) :
    Contained serialize (records.flatMap LogRecord.frames) (done.flatMap LogRecord.frames ++ part) p := by
  obtain ⟨hs, hall, ht⟩ := h.remaining
  rw [hall, h.bytes, serializeAll_eq_flatMap]
  exact contained_of_cut ht

theorem replayFrames_buffered (now : Nat) (fs : List Frame)
    (hfs : ∀ f ∈ fs, ∃ c : Command S, Parsed c ∧ aofFrame now c = some f)
    (hopen : r.transactionBuffer ≠ none) (h : replayFrames rts r fs = .ok r') :
    r'.db = r.db ∧ r'.transactionBuffer ≠ none := by
  induction fs generalizing r with
  | nil =>
      cases h
      exact ⟨rfl, hopen⟩
  | cons f fs ih =>
      obtain ⟨c, hc, hf⟩ := hfs f (by simp)
      obtain ⟨buffer, hbuffer⟩ := Option.ne_none_iff_exists'.mp hopen
      simp only [replayFrames] at h
      rcases replayFrame_recorded hc hf rts r with ⟨-, he⟩ | ⟨-, e, he⟩
      · rw [replayCommand_recorded (by rw [hf]; rfl), hbuffer] at he
        rw [he] at h
        exact ih (fun g hg => hfs g (List.mem_cons_of_mem f hg))
          (r := { r with transactionBuffer := some (buffer ++ [recorded now c]) }) (by simp) h
      · rw [he] at h
        cases h

/-- The complete frames of a record that was cut change no entry; unless there
are none, they leave a transaction open. -/
theorem replayFrames_part {rec : LogRecord S} (hw : rec.Written) {part hs : List Frame} {f : Frame}
    (hframes : rec.frames = part ++ f :: hs) (h : replayFrames rts r part = .ok r') :
    r'.db = r.db ∧ (part ≠ [] → r'.transactionBuffer ≠ none) := by
  cases part with
  | nil =>
      cases h
      exact ⟨rfl, fun hne => absurd rfl hne⟩
  | cons g part =>
      cases rec with
      | single now c =>
          obtain ⟨f', hf'⟩ := Option.isSome_iff_exists.mp hw.2
          have hlen := congrArg List.length hframes
          simp [LogRecord.frames, hf'] at hlen
      | group now cmds =>
          simp only [LogRecord.frames, List.cons_append, List.cons.injEq] at hframes
          obtain ⟨rfl, hbody⟩ := hframes
          have hpart : part <+: cmds.filterMap (aofFrame now) := by
            rcases List.prefix_concat_iff.mp (hbody ▸ List.prefix_append part (f :: hs)) with he | hpre
            · rw [he, List.self_eq_append_right] at hbody
              cases hbody
            · exact hpre
          simp only [replayFrames, replayFrame, tryFrom_multiFrame, replayCommand] at h
          obtain ⟨hdb, hopen⟩ := replayFrames_buffered now part (fun g hg => by
            obtain ⟨c, hc, hf⟩ := List.mem_filterMap.mp (hpart.subset hg)
            exact ⟨c, hw c hc, hf⟩) (by simp) h
          exact ⟨hdb, fun _ => hopen⟩

theorem readable_of_log {records : List (LogRecord S)} (hw : ∀ rec ∈ records, rec.Written)
    (hr : r.transactionBuffer = none)
    (h : replayFrames rts r (records.flatMap LogRecord.frames) = .ok r') :
    ∀ rec ∈ records, rec.Readable := by
  induction records generalizing r with
  | nil => intro rec hrec; cases hrec
  | cons rec records ih =>
      rw [List.flatMap_cons, replayFrames_append] at h
      cases hrec : replayFrames rts r rec.frames with
      | error e => simp [hrec] at h
      | ok r₁ =>
          have hl := readable_of_replayFrames (hw rec (by simp)) hrec
          rw [replayFrames_record (hw rec (by simp)) hl hr] at hrec
          rw [replayFrames_record (hw rec (by simp)) hl hr, hrec] at h
          rw [List.forall_mem_cons]
          exact ⟨hl, ih (fun x hx => hw x (List.mem_cons_of_mem rec hx))
            ((executeAll_ok _ hrec).1.trans hr) h⟩

/-- What recovery has done with a torn log: it has run the commands of the
complete records and nothing else. -/
theorem executed_cut {records done rest : List (LogRecord S)} (hw : ∀ rec ∈ records, rec.Written)
    {part : List Frame} {t p : Bytes} (hcut : CutAt records done rest part t p)
    (h : replayFrames rts (start db) (done.flatMap LogRecord.frames ++ part) = .ok r) :
    (∀ rec ∈ done, rec.Written ∧ rec.Readable) ∧
      ∃ r₁, executeAll rts (start db) (done.flatMap LogRecord.commands) = .ok r₁ ∧ r.db = r₁.db ∧
        (part = [] → r = r₁) ∧ (part ≠ [] → r.transactionBuffer ≠ none) := by
  have hwdone : ∀ rec ∈ done, rec.Written := fun rec hrec =>
    hw rec (hcut.split ▸ List.mem_append_left rest hrec)
  rw [replayFrames_append] at h
  cases hdone : replayFrames rts (start db) (done.flatMap LogRecord.frames) with
  | error e => simp [hdone] at h
  | ok r₁ =>
      have hl := readable_of_log hwdone rfl hdone
      have hrun : executeAll rts (start db) (done.flatMap LogRecord.commands) = .ok r₁ :=
        (replayFrames_log hwdone hl rfl).symm.trans hdone
      simp only [hdone] at h
      refine ⟨fun rec hrec => ⟨hwdone rec hrec, hl rec hrec⟩, r₁, hrun, ?_⟩
      rcases hcut.frames with ⟨-, rfl, -⟩ | ⟨rec, rest', f, hs, hrest, hframes, -⟩
      · cases h
        exact ⟨rfl, fun _ => rfl, fun hne => absurd rfl hne⟩
      · have hwrec : rec.Written := hw rec (by rw [hcut.split, hrest]; simp)
        obtain ⟨hdb, hopen⟩ := replayFrames_part hwrec hframes h
        refine ⟨hdb, fun hnil => ?_, hopen⟩
        rw [hnil] at h
        cases h
        rfl

/-- After a crash at any byte, a recovery that succeeds has replayed exactly the
records that were written completely, and cut the file after its last complete
frame. -/
theorem torn_log_recovery {records : List (LogRecord S)} (hw : ∀ rec ∈ records, rec.Written)
    {p : Bytes} (hp : p <+: log records) {capacity : Nat} (hpos : 0 < capacity)
    (hcap : p.length ≤ capacity) {file : Bytes}
    (h : explainExecuteAofcommand rts capacity p (atOnce p) db = some (.ok (r, file))) :
    (∃ done, Contained LogRecord.bytes records done p ∧
      ∃ r₁, executeAll rts (start db) (done.flatMap LogRecord.commands) = .ok r₁ ∧ r.db = r₁.db) ∧
    ∃ gs, Contained serialize (records.flatMap LogRecord.frames) gs p ∧ file = serializeAll gs := by
  obtain ⟨done, rest, part, t, hcut⟩ := exists_cutAt hw hp
  obtain ⟨hfile, hreplay⟩ := recovered_cut hw hcut hpos hcap h
  obtain ⟨-, r₁, hrun, hdb, -⟩ := executed_cut hw hcut hreplay
  exact ⟨⟨done, hcut.records, r₁, hrun, hdb⟩, _, hcut.contained, hfile⟩

/-- What is left of the log is nothing, or it has the whole first frame. -/
def HoldsFirst (records : List (LogRecord S)) (p : Bytes) : Prop :=
  p = [] ∨ ∃ f fs, records.flatMap LogRecord.frames = f :: fs ∧ serialize f <+: p

omit [Host] in
theorem CutAt.holdsFirst_iff {records done rest : List (LogRecord S)} {part : List Frame} {t p : Bytes}
    (h : CutAt records done rest part t p) :
    HoldsFirst records p ↔ ¬ (done.flatMap LogRecord.frames ++ part = [] ∧ t ≠ []) := by
  obtain ⟨hs, hall, ht⟩ := h.remaining
  rw [HoldsFirst, hall, h.bytes]
  cases done.flatMap LogRecord.frames ++ part with
  | cons g gs =>
      refine iff_of_true (.inr ⟨g, gs ++ hs, rfl, ?_⟩) (by simp)
      rw [serializeAll, List.append_assoc]
      exact List.prefix_append _ _
  | nil =>
      simp only [serializeAll, List.nil_append, true_and, not_not]
      refine ⟨?_, .inl⟩
      rintro (hnil | ⟨f, fs, hhs, hpre⟩)
      · exact hnil
      · rcases ht with ⟨rfl, -⟩ | ⟨f', hs', rfl, hpre', hstrict⟩
        · cases hhs
        · cases hhs
          exact absurd (hpre'.eq_of_length_le hpre.length_le) hstrict

/-- A log that could be replayed as a whole is recovered after a crash at any byte, with all its
complete frames, unless the crash was inside the very first frame. -/
theorem torn_log_starts_iff {records : List (LogRecord S)} (hw : ∀ rec ∈ records, rec.Written)
    (h : replayFrames rts (start db) (records.flatMap LogRecord.frames) = .ok r) {p : Bytes}
    (hp : p <+: log records) {capacity : Nat} (hpos : 0 < capacity) (hcap : p.length ≤ capacity) :
    (∃ r' gs, explainExecuteAofcommand rts capacity p (atOnce p) db = some (.ok (r', serializeAll gs)) ∧
      Contained serialize (records.flatMap LogRecord.frames) gs p) ↔ HoldsFirst records p := by
  obtain ⟨done, rest, part, t, hcut⟩ := exists_cutAt hw hp
  obtain ⟨hs, hall, ht⟩ := hcut.remaining
  have hfit := frames_fit hw
  rw [hall] at hfit
  have hparse := parseFrame_cut (fun f hf => hfit f (List.mem_append_right _ hf)) ht
  have hstart : explainExecuteAofcommand rts capacity _ (atOnce _) db = _ :=
    explain_atOnce (fun f hf => hfit f (List.mem_append_left hs hf)) hparse hpos (hcut.bytes ▸ hcap)
  rw [← hcut.bytes] at hstart
  rw [hcut.holdsFirst_iff, hstart]
  rw [hall, replayFrames_append] at h
  cases hr : replayFrames rts (start db) (done.flatMap LogRecord.frames ++ part) with
  | error e => simp [hr] at h
  | ok r₁ =>
      by_cases hfirst : done.flatMap LogRecord.frames ++ part = [] ∧ t ≠ []
      · simp [hfirst]
      · refine iff_of_true ⟨r₁, _, ?_, hcut.contained⟩ hfirst
        simp only [if_neg hfirst]

theorem LogRecord.commands_parsed {rec : LogRecord S} (hw : rec.Written) (hl : rec.Readable) :
    ∀ c ∈ rec.commands, Parsed c ∧ (aofFrame 0 c).isSome := by
  have hone {now : Nat} {c : Command S} (hc : Parsed c) (hlog : Loggable now c)
      (hsome : (aofFrame now c).isSome) : Parsed (recorded now c) ∧ (aofFrame 0 (recorded now c)).isSome := by
    obtain ⟨f, hf⟩ := Option.isSome_iff_exists.mp hsome
    refine ⟨parsed_of_aofFrame hf hlog (Parsed.fits hc hf), ?_⟩
    cases c with
    | set | mset | lpush | lpop | hset | hdel | jsonSet | zadd | zrem => rfl
    | get | ping | unimplement | eval | blpop | hget | mget | multi | exec | multiGroup | jsonGet
    | zscore | zrank | zrange => cases hf
  cases rec with
  | single now c =>
      intro d hd
      rw [List.mem_singleton.mp hd]
      exact hone hw.1 hl hw.2
  | group now cmds =>
      intro d hd
      obtain ⟨c, hc, rfl⟩ := List.mem_map.mp hd
      obtain ⟨hc, hsome⟩ := List.mem_filter.mp hc
      exact hone (hw c hc) (hl c hc) hsome

/-- Replaying commands twice gives the same values, whatever the levels and
capacities come out as. -/
theorem executeAll_observed (rts' : Nat → Runtime) (cs : List (Command S))
    (hcs : ∀ c ∈ cs, Parsed c ∧ (aofFrame 0 c).isSome) {a a' b : Recovered S J}
    (h : ∀ k, observed (a.db.entry k) = observed (a'.db.entry k))
    (hrun : executeAll rts a cs = .ok b) :
    ∃ b', executeAll rts' a' cs = .ok b' ∧
      ∀ k, observed (b.db.entry k) = observed (b'.db.entry k) := by
  induction cs generalizing a a' with
  | nil =>
      cases hrun
      exact ⟨a', rfl, h⟩
  | cons c cs ih =>
      obtain ⟨hc, hsome⟩ := hcs c (by simp)
      obtain ⟨hdone, hentry⟩ := Db.execute_entry (rts a.executed.length) 0 a.db c
      obtain ⟨hdone', hentry'⟩ := Db.execute_entry (rts' a'.executed.length) 0 a'.db c
      obtain ⟨hsame, hsame'⟩ := execute_observed hc hsome (rts a.executed.length)
        (rts' a'.executed.length) h
      rw [← hdone, ← hdone'] at hsame
      rw [← hentry, ← hentry'] at hsame'
      simp only [executeAll, executeCommand] at hrun ⊢
      revert hrun hsame hsame'
      cases execute (rts a.executed.length) 0 a.db c with
      | mk d db =>
          cases execute (rts' a'.executed.length) 0 a'.db c with
          | mk d' db' =>
              rintro hrun rfl hsame'
              obtain ⟨reply, aof, waits⟩ := d
              cases reply with
              | error e => cases hrun
              | ok frame =>
                  refine ih (fun x hx => hcs x (List.mem_cons_of_mem c hx)) ?_ hrun
                  exact hsame'

end Cut

section Sample

local instance : Host := singleShard

local instance : F64 UInt64 := wholeScore

local instance : SerdeJson Str := flatJson

def sampleRun : Recovered UInt64 Str :=
  ⟨(execute (sampleRuntime 0) 0 sampleDb (.set sampleSet)).2, none, [.set sampleSet]⟩

theorem sample_replay : replayFrames sampleRuntime (start sampleDb) [sampleFrame] = .ok sampleRun := by
  have hw : ∀ rec ∈ [sampleRecord], rec.Written := fun rec hrec => sample_written rec (by simpa using hrec)
  have hl : ∀ rec ∈ [sampleRecord], rec.Readable := fun rec hrec => sample_readable rec (by simpa using hrec)
  exact (replayFrames_log hw hl rfl).trans rfl

def groupRecord : LogRecord UInt64 := .group 0 [.set sampleSet, .set sampleSet]

theorem group_written : ∀ rec ∈ [sampleRecord, groupRecord], rec.Written := by
  have hsingle : sampleRecord.Written := ⟨sample_parsed, rfl⟩
  have hgroup : groupRecord.Written := by
    intro c hc
    rw [show c = .set sampleSet by simpa using hc]
    exact sample_parsed
  simp [hsingle, hgroup]

/-- What is left of a SET and a group of two: the frame of the group's second command is
cut after five bytes. -/
def tornGroup : Bytes := serializeAll [sampleFrame, AofEncoder.multiFrame, sampleFrame] ++ (serialize sampleFrame).take 5

def tornRun : Recovered UInt64 Str := { sampleRun with transactionBuffer := some [.set sampleSet] }

/-- The group that is cut has no effect, and what is left of it stays in the file. -/
theorem torn_log_recovery_sample :
    (∃ done, Contained LogRecord.bytes [sampleRecord, groupRecord] done tornGroup ∧
      ∃ r₁, executeAll sampleRuntime (start sampleDb) (done.flatMap LogRecord.commands) = .ok r₁ ∧
        tornRun.db = r₁.db) ∧
    ∃ gs, Contained serialize ([sampleRecord, groupRecord].flatMap LogRecord.frames) gs tornGroup ∧
      serializeAll [sampleFrame, AofEncoder.multiFrame, sampleFrame] = serializeAll gs := by
  have hframes : [sampleRecord, groupRecord].flatMap LogRecord.frames =
      [sampleFrame, AofEncoder.multiFrame, sampleFrame] ++ [sampleFrame, AofEncoder.execFrame] := rfl
  have hfits := frames_fit group_written
  rw [hframes] at hfits
  have h : explainExecuteAofcommand sampleRuntime 512 tornGroup (atOnce tornGroup) sampleDb =
      some (.ok (tornRun, serializeAll [sampleFrame, AofEncoder.multiFrame, sampleFrame])) := by
    have hcut : parseFrame ((serialize sampleFrame).take 5) = .ok none :=
      parseFrame_strictPrefix (hfits sampleFrame (by simp)) (List.take_prefix 5 _) (by decide)
    have hreplay : replayFrames sampleRuntime (start sampleDb) [sampleFrame, AofEncoder.multiFrame, sampleFrame] =
        .ok tornRun := rfl
    rw [tornGroup, explain_atOnce (fun f hf => hfits f (List.mem_append_left _ hf)) (.inr hcut) (by decide)
      (by decide), hreplay]
    rfl
  refine torn_log_recovery group_written ?_ (by decide) (by decide) h
  rw [log_eq group_written, hframes, serializeAll_append]
  refine (List.prefix_append_right_inj _).mpr ?_
  rw [serializeAll]
  exact (List.take_prefix 5 _).trans (List.prefix_append _ _)

/-- One byte of the only record is left. -/
theorem torn_first_record_fails :
    (∀ rec ∈ [sampleRecord], rec.Written) ∧
    replayFrames sampleRuntime (start sampleDb) ([sampleRecord].flatMap LogRecord.frames) = .ok sampleRun ∧
    [star] <+: log [sampleRecord] ∧
    explainExecuteAofcommand sampleRuntime 512 [star] (atOnce [star]) sampleDb =
      some (.error (.text "字符串文件过大 大于512M")) := by
  refine ⟨fun rec hrec => sample_written rec (by simpa using hrec), sample_replay, ⟨_, rfl⟩, ?_⟩
  have hparse : parseFrame [star] = .ok none := by rfl
  have hnone : ∀ f ∈ ([] : List Frame), Fits f := by simp
  exact explain_atOnce hnone (.inr hparse) (by decide) (by decide)

theorem torn_log_starts_sample :
    let p := serializeAll [sampleFrame] ++ (serialize sampleFrame).take 5
    HoldsFirst [sampleRecord, sampleRecord] p ∧ ∃ r' gs,
      explainExecuteAofcommand sampleRuntime 512 p (atOnce p) sampleDb = some (.ok (r', serializeAll gs)) ∧
        Contained serialize ([sampleRecord, sampleRecord].flatMap LogRecord.frames) gs p := by
  intro p
  have hfirst : HoldsFirst [sampleRecord, sampleRecord] p :=
    .inr ⟨sampleFrame, [sampleFrame], rfl, List.prefix_append _ _⟩
  have hreplay : ∃ r, replayFrames sampleRuntime (start sampleDb)
      ([sampleRecord, sampleRecord].flatMap LogRecord.frames) = .ok r :=
    ⟨_, (replayFrames_log sample_written sample_readable rfl).trans rfl⟩
  obtain ⟨r, hreplay⟩ := hreplay
  refine ⟨hfirst, (torn_log_starts_iff sample_written hreplay ?_ (by decide) (by decide)).mpr hfirst⟩
  rw [log_eq sample_written]
  exact (List.prefix_append_right_inj _).mpr (List.take_prefix 5 _)

end Sample

end RustKv.Recovery
