import RustKv.FrameGrammar
import RustKv.Connection
import RustKv.Executor

namespace RustKv.Connection

open Text Protocol Domain FrameParser FrameRoundTrip FrameGrammar CommandParser Zset RustKv.Types Executor

theorem infix_of_append_cons {p u v : Bytes} {x : UInt8} (hx : x ∉ p) (h : p <:+: u ++ x :: v) :
    p <:+: u ∨ p <:+: v := by
  obtain ⟨s, t, he⟩ := h
  rw [List.append_assoc] at he
  rcases List.append_eq_append_iff.mp he with ⟨a, rfl, hb⟩ | ⟨a, rfl, hb⟩
  · rcases List.append_eq_append_iff.mp hb with ⟨d, rfl, -⟩ | ⟨d, rfl, hd⟩
    · exact .inl ⟨s, d, by simp⟩
    · cases d with
      | nil => exact .inl ⟨s, [], by simp⟩
      | cons y d =>
          obtain ⟨rfl, -⟩ := List.cons.inj hd
          exact absurd (by simp) hx
  · cases a with
    | nil =>
        cases p with
        | nil => exact .inl (List.nil_infix)
        | cons y p =>
            obtain ⟨rfl, -⟩ := List.cons.inj hb
            exact absurd (by simp) hx
    | cons y a =>
        obtain ⟨-, rfl⟩ := List.cons.inj hb
        exact .inr ⟨a, t, by simp⟩

/-- Replacing ill-formed sequences makes no new ASCII text. -/
theorem infix_of_lossyFrom {p : Bytes} (hne : p ≠ []) (hp : ∀ x ∈ p, x < 0x80) (fuel : Nat) (b : Bytes)
    (h : p <:+: lossyFrom fuel b) : p <:+: b := by
  have hr : ∀ x ∈ replacement, x ∉ p := by
    intro x hx hm
    have := hp x hm
    simp only [replacement, List.mem_cons, List.not_mem_nil, or_false] at hx
    rcases hx with rfl | rfl | rfl <;> exact absurd this (by decide)
  induction fuel generalizing b with
  | zero => exact absurd (List.infix_nil.mp h) hne
  | succ fuel ih =>
      rw [lossyFrom] at h
      cases he : utf8Error b with
      | none => simpa [he] using h
      | some e =>
          simp only [he, replacement, List.append_assoc, List.cons_append, List.nil_append] at h
          rcases infix_of_append_cons (hr 0xEF (by simp [replacement])) h with h | h
          · exact h.trans (List.take_prefix _ _).isInfix
          · rcases infix_of_append_cons (u := []) (hr 0xBF (by simp [replacement])) h with h | h
            · exact absurd (List.infix_nil.mp h) hne
            · rcases infix_of_append_cons (u := []) (hr 0xBD (by simp [replacement])) h with h | h
              · exact absurd (List.infix_nil.mp h) hne
              · cases hl : e.errorLen with
                | none =>
                    simp only [hl] at h
                    exact absurd (List.infix_nil.mp h) hne
                | some n =>
                    simp only [hl] at h
                    exact (ih _ h).trans (List.drop_suffix _ _).isInfix

/-- The text mentions PSYNC in no place. -/
def NoPsync (b : Bytes) : Prop := ¬ upperPsync <:+: b ∧ ¬ lowerPsync <:+: b

theorem NoPsync.of_infix {b c : Bytes} (h : NoPsync b) (hc : c <:+: b) : NoPsync c :=
  ⟨fun hp => h.1 (hp.trans hc), fun hp => h.2 (hp.trans hc)⟩

theorem NoPsync.not_request {b : Bytes} (h : NoPsync b) : isPsyncRequest b = false := by
  have hu : ¬ upperPsync <:+: fromUtf8Lossy b := fun hp =>
    h.1 (infix_of_lossyFrom (by decide) (by decide) _ _ hp)
  have hl : ¬ lowerPsync <:+: fromUtf8Lossy b := fun hp =>
    h.2 (infix_of_lossyFrom (by decide) (by decide) _ _ hp)
  simp [isPsyncRequest, hu, hl]

section Requests

variable {W S : Type} [Host] [F64 S] {exec : W → Command S → Except KvError Frame × W}

/-- Every request is a command that executes without an error: the commands and
their replies, in order. -/
inductive Accepted (exec : W → Command S → Except KvError Frame × W) :
    W → List Frame → List (Command S) → List Bytes → W → Prop
  | nil {w : W} : Accepted exec w [] [] [] w
  | cons {w w₁ w₂ : W} {f r : Frame} {c : Command S} {fs : List Frame} {cs : List (Command S)}
      {rs : List Bytes} (hf : tryFrom f = .ok c) (hx : exec w c = (.ok r, w₁))
      (h : Accepted exec w₁ fs cs rs w₂) :
      Accepted exec w (f :: fs) (c :: cs) (serialize r :: rs) w₂

theorem Accepted.split {gs hs : List Frame} {cs : List (Command S)} {rs : List Bytes} {w w' : W}
    (h : Accepted exec w (gs ++ hs) cs rs w') : ∃ cs₁ cs₂ rs₁ rs₂ w₁, cs = cs₁ ++ cs₂ ∧
      rs = rs₁ ++ rs₂ ∧ Accepted exec w gs cs₁ rs₁ w₁ ∧ Accepted exec w₁ hs cs₂ rs₂ w' := by
  induction gs generalizing w cs rs with
  | nil => exact ⟨[], cs, [], rs, w, rfl, rfl, .nil, h⟩
  | cons f gs ih =>
      cases h with
      | cons hf hx h =>
          obtain ⟨cs₁, cs₂, rs₁, rs₂, w₁, rfl, rfl, h₁, h₂⟩ := ih h
          exact ⟨_, cs₂, _, rs₂, w₁, rfl, rfl, .cons hf hx h₁, h₂⟩

theorem explainLoop_accepted (buf : Bytes) {fs : List Frame} {bs tail : Bytes} {cs : List (Command S)}
    {rs : List Bytes} {w w' : W} (hd : DerivesAll fs bs) (ha : Accepted exec w fs cs rs w')
    (ht : parseFrame tail = .ok none) (fuel total : Nat) (results : List Bytes)
    (executed : List (Command S)) (hfuel : fs.length ≤ fuel) :
    explainLoop exec buf fuel ⟨bs ++ tail, total, results, executed, w⟩ =
      (.ok (results ++ rs), buf.drop (total + bs.length),
        ⟨tail, total + bs.length, results ++ rs, executed ++ cs, w'⟩) := by
  induction fs generalizing bs cs rs w fuel total results executed with
  | nil =>
      cases hd
      cases ha
      cases fuel with
      | zero => simp [explainLoop]
      | succ fuel => simp [explainLoop, ht]
  | cons f fs ih =>
      cases hd with
      | @cons _ _ bs bs' hf hd =>
          cases ha with
          | cons hc hx ha =>
              obtain ⟨fuel, rfl⟩ := Nat.exists_eq_add_of_le' (show 1 ≤ fuel by simp at hfuel; omega)
              have hp := parseFrame_derived hf (bs' ++ tail)
              rw [explainLoop]
              simp only [List.append_assoc, hp, hc, hx, List.drop_left]
              rw [ih hd ha fuel _ _ _ (by simpa using hfuel)]
              simp [Nat.add_assoc]

theorem handle_accepted (c : Conn W S) {chunk bs tail : Bytes} {fs : List Frame}
    {cs : List (Command S)} {rs : List Bytes} {w' : W} (hb : c.buf ++ chunk = bs ++ tail)
    (hp : NoPsync (c.buf ++ chunk)) (hd : DerivesAll fs bs) (ha : Accepted exec c.state fs cs rs w')
    (ht : parseFrame tail = .ok none) :
    c.handle exec (.gotData chunk) =
      ⟨tail, w', c.executed ++ cs, c.written ++ rs, c.phase⟩ := by
  have hl := explainLoop_accepted (bs ++ tail) hd ha ht (bs ++ tail).length 0 [] []
    (by have := hd.length_le; simp; omega)
  rw [Conn.handle, hb, if_neg (by simp [← hb, hp.not_request]), explainExecuteCommand, hl]
  simp

theorem handleConnection_chunks (c : Conn W S) (chunks : List Bytes) {fs : List Frame}
    {cs : List (Command S)} {rs : List Bytes} {w' : W} (hs : c.phase = .serving)
    (hd : DerivesAll fs (c.buf ++ chunks.flatten)) (hn : parseFrame c.buf = .ok none)
    (ha : Accepted exec c.state fs cs rs w') (hp : NoPsync (c.buf ++ chunks.flatten)) :
    handleConnection exec c (chunks.map .gotData) =
      ⟨[], w', c.executed ++ cs, c.written ++ rs, .serving⟩ := by
  induction chunks generalizing c fs cs rs with
  | nil =>
      simp only [List.flatten_nil, List.append_nil] at hd
      obtain ⟨rfl, hb⟩ := hd.nil_of_incomplete hn
      cases ha
      cases c
      simp_all [handleConnection]
  | cons chunk chunks ih =>
      simp only [List.flatten_cons, ← List.append_assoc] at hd hp
      obtain ⟨gs, hs', bs, bs', tail, rfl, hg, hh, he, hb, ht⟩ := hd.split (List.prefix_append _ _)
      obtain ⟨cs₁, cs₂, rs₁, rs₂, w₁, rfl, rfl, ha₁, ha₂⟩ := ha.split
      have hstep := handle_accepted c hb (hp.of_infix (List.prefix_append _ _).isInfix) hg ha₁ ht
      have hrest : bs' = tail ++ chunks.flatten := by
        rw [hb, List.append_assoc] at he
        exact (List.append_cancel_left he).symm
      rw [hrest] at hh
      have hp' : NoPsync (tail ++ chunks.flatten) := by
        rw [hb, List.append_assoc] at hp
        exact hp.of_infix (List.suffix_append _ _).isInfix
      rw [List.map_cons, handleConnection, hs]
      simp only
      rw [hstep, ih ⟨tail, w₁, c.executed ++ cs₁, c.written ++ rs₁, c.phase⟩ hs hh ht ha₂ hp']
      simp

/-- However a stream of good requests is cut into reads, the connection executes
the same commands, sends the same replies and is left with an empty buffer. -/
theorem chunking_irrelevant (w : W) {fs : List Frame} {stream : Bytes} {cs : List (Command S)}
    {rs : List Bytes} {w' : W} (hd : DerivesAll fs stream) (ha : Accepted exec w fs cs rs w')
    (hp : NoPsync stream) (chunks chunks' : List Bytes) (h : chunks.flatten = stream)
    (h' : chunks'.flatten = stream) :
    let c := handleConnection exec (Conn.new w) (chunks.map .gotData)
    let c' := handleConnection exec (Conn.new w) (chunks'.map .gotData)
    c.executed = c'.executed ∧ c.written.flatten = c'.written.flatten ∧ c = c' ∧
      c = ⟨[], w', cs, rs, .serving⟩ := by
  have hrun (chunks : List Bytes) (h : chunks.flatten = stream) :
      handleConnection exec (Conn.new w) (chunks.map .gotData) = ⟨[], w', cs, rs, .serving⟩ := by
    subst h
    exact handleConnection_chunks (Conn.new w) chunks rfl hd rfl ha hp
  intro c c'
  have hc : c = ⟨[], w', cs, rs, .serving⟩ := hrun chunks h
  have hc' : c' = ⟨[], w', cs, rs, .serving⟩ := hrun chunks' h'
  rw [hc, hc']
  exact ⟨rfl, rfl, rfl, rfl⟩

/-- One answer to each request, in order: its reply, or an error frame when it does
not parse or its execution returns an error. -/
inductive Answers (exec : W → Command S → Except KvError Frame × W) :
    W → List Frame → List (Command S) → List Bytes → W → Prop
  | nil {w : W} : Answers exec w [] [] [] w
  | answered {w w₁ w₂ : W} {f r : Frame} {c : Command S} {fs : List Frame} {cs : List (Command S)}
      {rs : List Bytes} (hf : tryFrom f = .ok c) (hx : exec w c = (.ok r, w₁))
      (h : Answers exec w₁ fs cs rs w₂) :
      Answers exec w (f :: fs) (c :: cs) (serialize r :: rs) w₂
  | failed {w w₁ w₂ : W} {f : Frame} {c : Command S} {e : KvError} {text : Bytes} {fs : List Frame}
      {cs : List (Command S)} {rs : List Bytes} (hf : tryFrom f = .ok c)
      (hx : exec w c = (.error e, w₁)) (h : Answers exec w₁ fs cs rs w₂) :
      Answers exec w (f :: fs) (c :: cs) (serialize (.error text) :: rs) w₂
  | refused {w w₁ : W} {f : Frame} {e : KvError} {text : Bytes} {fs : List Frame}
      {cs : List (Command S)} {rs : List Bytes} (hf : tryFrom (S := S) f = .error e)
      (h : Answers exec w fs cs rs w₁) :
      Answers exec w (f :: fs) cs (serialize (.error text) :: rs) w₁

theorem Answers.length_eq {fs : List Frame} {cs : List (Command S)} {rs : List Bytes} {w w' : W}
    (h : Answers exec w fs cs rs w') : rs.length = fs.length := by
  induction h with
  | nil => rfl
  | answered _ _ _ ih => simp [ih]
  | failed _ _ _ ih => simp [ih]
  | refused _ _ ih => simp [ih]

theorem Accepted.answers {fs : List Frame} {cs : List (Command S)} {rs : List Bytes} {w w' : W}
    (h : Accepted exec w fs cs rs w') : Answers exec w fs cs rs w' := by
  induction h with
  | nil => exact .nil
  | cons hf hx _ ih => exact .answered hf hx ih

/-- Every request is a command, and executed in order none returns an error. -/
def smooth (exec : W → Command S → Except KvError Frame × W) : W → List Frame → Bool
  | _, [] => true
  | w, f :: fs =>
      match tryFrom f with
      | .ok c =>
          match exec w c with
          | (.ok _, w) => smooth exec w fs
          | (.error _, _) => false
      | .error _ => false

theorem accepted_of_smooth {fs : List Frame} {w : W} (h : smooth exec w fs = true) :
    ∃ cs rs w', Accepted exec w fs cs rs w' := by
  induction fs generalizing w with
  | nil => exact ⟨[], [], w, .nil⟩
  | cons f fs ih =>
      rw [smooth] at h
      rcases hf : tryFrom (S := S) f with e | c
      · simp [hf] at h
      · rcases hx : exec w c with ⟨e | r, w₁⟩
        · simp [hf, hx] at h
        · simp only [hf, hx] at h
          obtain ⟨cs, rs, w', ha⟩ := ih h
          exact ⟨c :: cs, serialize r :: rs, w', .cons hf hx ha⟩

theorem explainLoop_not_smooth (buf : Bytes) {fs : List Frame} {bs : Bytes} {w : W}
    (hd : DerivesAll fs bs) (h : smooth exec w fs = false) (fuel total : Nat) (results : List Bytes)
    (executed : List (Command S)) (hfuel : fs.length ≤ fuel) :
    ∃ e left b, explainLoop exec buf fuel ⟨bs, total, results, executed, w⟩ = (.error e, left, b) := by
  induction fs generalizing bs w fuel total results executed with
  | nil => simp [smooth] at h
  | cons f fs ih =>
      cases hd with
      | @cons _ _ bs bs' hf hd =>
          obtain ⟨fuel, rfl⟩ := Nat.exists_eq_add_of_le' (show 1 ≤ fuel by simp at hfuel; omega)
          rw [smooth] at h
          rw [explainLoop]
          simp only [parseFrame_derived hf bs']
          rcases hc : tryFrom (S := S) f with e | c
          · exact ⟨e, _, _, rfl⟩
          · rcases hx : exec w c with ⟨e | r, w₁⟩
            · simp only [hx]
              exact ⟨e, _, _, rfl⟩
            · simp only [hc, hx] at h
              simp only [hx, List.drop_left]
              exact ih hd h fuel _ _ _ (by simpa using hfuel)

theorem explainLoop_single (buf : Bytes) {f : Frame} {bs : Bytes} (w : W) (hf : Derives f bs)
    (fuel : Nat) {e : KvError} {left : Bytes} {b : Batch W S}
    (he : explainLoop exec buf (fuel + 1) ⟨bs, 0, [], [], w⟩ = (.error e, left, b)) :
    Answers exec w [f] b.executed [errorReply e] b.state := by
  have hp := parseFrame_derived hf []
  rw [List.append_nil] at hp
  rw [explainLoop] at he
  simp only [hp] at he
  rcases hc : tryFrom (S := S) f with e' | c
  · simp only [hc] at he
    cases he
    exact .refused hc .nil
  · rcases hx : exec w c with ⟨e' | r, w₁⟩
    · simp only [hc, hx] at he
      cases he
      exact .failed hc hx .nil
    · cases fuel with
      | zero => simp [hc, hx, explainLoop] at he
      | succ fuel =>
          have hn : parseFrame [] = .ok none := rfl
          simp [hc, hx, explainLoop, hn] at he

theorem handle_failed (c : Conn W S) {chunk left : Bytes} {e : KvError} {b : Batch W S}
    (hp : NoPsync (c.buf ++ chunk))
    (he : explainExecuteCommand exec (c.buf ++ chunk) c.state = (.error e, left, b)) :
    c.handle exec (.gotData chunk) =
      ⟨[], b.state, c.executed ++ b.executed, c.written ++ [errorReply e], c.phase⟩ := by
  rw [Conn.handle, if_neg (by simp [hp.not_request]), he]

/-- A buffer of whole requests gets one answer for each of them exactly when there
is no more than one, or none of them fails. -/
theorem answers_iff_smooth (c : Conn W S) {chunk : Bytes} {fs : List Frame}
    (hd : DerivesAll fs (c.buf ++ chunk)) (hp : NoPsync (c.buf ++ chunk)) :
    (∃ cs rs, (c.handle exec (.gotData chunk)).executed = c.executed ++ cs ∧
      (c.handle exec (.gotData chunk)).written = c.written ++ rs ∧
      Answers exec c.state fs cs rs (c.handle exec (.gotData chunk)).state) ↔
    fs.length ≤ 1 ∨ smooth exec c.state fs = true := by
  by_cases hs : smooth exec c.state fs = true
  · obtain ⟨cs, rs, w', ha⟩ := accepted_of_smooth hs
    have hb : c.buf ++ chunk = (c.buf ++ chunk) ++ [] := (List.append_nil _).symm
    have hh := handle_accepted c hb hp hd ha rfl
    simp only [hs, or_true, iff_true]
    rw [hh]
    exact ⟨cs, rs, rfl, rfl, ha.answers⟩
  · obtain ⟨e, left, b, he⟩ := explainLoop_not_smooth (c.buf ++ chunk) hd (by simpa using hs)
      (c.buf ++ chunk).length 0 [] [] hd.length_le
    rw [handle_failed c hp he]
    simp only [hs, or_false, Bool.false_eq_true]
    constructor
    · rintro ⟨cs, rs, -, hw, ha⟩
      rw [← ha.length_eq, ← List.append_cancel_left hw]
      simp
    · intro hl
      refine ⟨b.executed, [errorReply e], rfl, rfl, ?_⟩
      match fs, hl, hd with
      | [], _, _ => simp [smooth] at hs
      | [f], _, hd =>
          have hf := hd.single
          obtain ⟨fuel, hfuel⟩ := Nat.exists_eq_add_of_le' (List.length_pos_iff.mpr hf.ne_nil)
          rw [hfuel] at he
          exact explainLoop_single (c.buf ++ chunk) c.state hf fuel he
      | _ :: _ :: _, hl, _ => simp at hl

end Requests

section Sample

local instance : Host := singleShard

local instance : F64 UInt64 := wholeScore

local instance : SerdeJson Str := flatJson

/-- The commands of a client that waits for nobody and runs no scripts. -/
def executeAlone (db : Db (Value UInt64 Str)) (c : Command UInt64) :
    Except KvError Frame × Db (Value UInt64 Str) :=
  let (done, db) := execute ⟨[], 0, 0⟩ 0 db c
  (done.reply, db)

def request (words : List Bytes) : Frame := .array (words.map .bulk)

/-- SET k v, ZADD k 1 m and GET k. -/
def pipelined : List Frame :=
  [request [ascii ['S', 'E', 'T'], ascii ['k'], ascii ['v']],
    request [ascii ['Z', 'A', 'D', 'D'], ascii ['k'], ascii ['1'], ascii ['m']],
    request [ascii ['G', 'E', 'T'], ascii ['k']]]

theorem pipelined_fits : ∀ f ∈ pipelined, Fits f := by
  simp [pipelined, request, Fits, FitsAll, ascii]

def emptyDb : Db (Value UInt64 Str) := Db.new .lru

theorem noPsync_pipelined : NoPsync (serializeAll pipelined) := by
  have hu : (89 : UInt8) ∉ serializeAll pipelined := by decide +kernel
  have hl : (121 : UInt8) ∉ serializeAll pipelined := by decide +kernel
  exact ⟨fun h => hu (h.subset (by decide)), fun h => hl (h.subset (by decide))⟩

/-- The sorted set command fails on a string: one reply for three requests. -/
theorem failed_request_not_answered :
    DerivesAll pipelined (serializeAll pipelined) ∧ NoPsync (serializeAll pipelined) ∧
    let c := (Conn.new emptyDb : Conn _ UInt64).handle executeAlone (.gotData (serializeAll pipelined))
    ¬ ∃ cs rs, c.executed = [] ++ cs ∧ c.written = [] ++ rs ∧
      Answers executeAlone emptyDb pipelined cs rs c.state := by
  refine ⟨derivesAll_serialize _ pipelined_fits, noPsync_pipelined, ?_⟩
  rintro c ⟨cs, rs, -, hw, ha⟩
  have hl : ((Conn.new emptyDb : Conn _ UInt64).handle executeAlone
      (.gotData (serializeAll pipelined))).written.length = 1 := by
    decide +kernel
  have hn := ha.length_eq
  rw [List.nil_append] at hw
  rw [← hw, hl] at hn
  cases hn

/-- A request alone, and with another one behind it. -/
def accepted : List Frame :=
  [request [ascii ['S', 'E', 'T'], ascii ['k'], ascii ['v']], request [ascii ['P', 'I', 'N', 'G']]]

theorem accepted_fits : ∀ f ∈ accepted, Fits f := by
  simp [accepted, request, Fits, FitsAll, ascii]

theorem noPsync_accepted : NoPsync (serializeAll accepted) := by
  have hu : (89 : UInt8) ∉ serializeAll accepted := by decide +kernel
  have hl : (121 : UInt8) ∉ serializeAll accepted := by decide +kernel
  exact ⟨fun h => hu (h.subset (by decide)), fun h => hl (h.subset (by decide))⟩

theorem chunking_irrelevant_sample : ∃ cs rs w',
    let c := handleConnection executeAlone (Conn.new emptyDb) [.gotData (serializeAll accepted)]
    let c' := handleConnection executeAlone (Conn.new emptyDb)
      [.gotData ((serializeAll accepted).take 5), .gotData ((serializeAll accepted).drop 5)]
    c.executed = c'.executed ∧ c.written.flatten = c'.written.flatten ∧ c = c' ∧
      c = ⟨[], w', cs, rs, .serving⟩ := by
  have hs : smooth executeAlone emptyDb accepted = true := rfl
  obtain ⟨cs, rs, w', ha⟩ := accepted_of_smooth hs
  exact ⟨cs, rs, w', chunking_irrelevant emptyDb (derivesAll_serialize _ accepted_fits) ha
    noPsync_accepted [serializeAll accepted]
    [(serializeAll accepted).take 5, (serializeAll accepted).drop 5] (by simp) (by simp)⟩

theorem answers_iff_smooth_sample :
    let c := (Conn.new emptyDb : Conn _ UInt64).handle executeAlone (.gotData (serializeAll accepted))
    ∃ cs rs, c.executed = [] ++ cs ∧ c.written = [] ++ rs ∧
      Answers executeAlone emptyDb accepted cs rs c.state :=
  (answers_iff_smooth (Conn.new emptyDb) (derivesAll_serialize _ accepted_fits)
    noPsync_accepted).mpr (.inr rfl)

end Sample

end RustKv.Connection
