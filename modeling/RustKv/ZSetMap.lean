import RustKv.SkipOrder
import RustKv.ZSet

namespace RustKv.Zset

open Text Domain

variable {S : Type}

/-- What a sorted set is for: a finite map from members to scores. -/
abbrev Scores (S : Type) := Finmap (fun _ : Bytes => S)

inductive ScoreOp (S : Type)
  | insert (score : S) (member : Bytes)
  | delete (member : Bytes)

def Scores.step (m : Scores S) : ScoreOp S → Bool × Scores S
  | .insert score member => (decide (member ∉ m), m.insert member score)
  | .delete member => (decide (member ∈ m), m.erase member)

def Scores.run (m : Scores S) : List (ScoreOp S) → List Bool × Scores S
  | [] => ([], m)
  | op :: ops =>
      let (b, m) := m.step op
      let (bs, m) := Scores.run m ops
      (b :: bs, m)

/-- The members with a smaller score than `e`, or with its score and a smaller name. -/
def Scores.smaller [LinearOrder S] (m : Scores S) (e : S × Bytes) : Finset Bytes :=
  m.keys.filter (fun member => ∃ score ∈ m.lookup member, toLex (score, member) < toLex e)

def ZSet.step [Score S] (z : ZSet S) : ScoreOp S × Runtime → Bool × ZSet S
  | (.insert score member, rt) => z.insert rt score member
  | (.delete member, _) => z.delete member

def ZSet.run [Score S] (z : ZSet S) : List (ScoreOp S × Runtime) → List Bool × ZSet S
  | [] => ([], z)
  | op :: ops =>
      let (b, z) := z.step op
      let (bs, z) := ZSet.run z ops
      (b :: bs, z)

/-- The skip list holds the entries of `m` in order. -/
structure SkipIndex.Indexes [LinearOrder S] (x : SkipIndex S) (m : Scores S)
    (E : List (S × Bytes)) : Prop where
  lists : ∃ chain, x.list.Chain chain ∧ x.list.Lists chain E
  sorted : E.Pairwise (fun a b => toLex a < toLex b)
  mem_iff : ∀ score member, (score, member) ∈ E ↔ m.lookup member = some score

section Ordered

variable [LinearOrder S] {x : SkipIndex S} {m : Scores S} {E : List (S × Bytes)} {P : S → Prop}

def Scores.Within (P : S → Prop) (m : Scores S) : Prop :=
  ∀ member score, m.lookup member = some score → P score

omit [LinearOrder S] in
theorem Scores.Within.insert (h : m.Within P) {score : S} (hs : P score) (member : Bytes) :
    Scores.Within P (m.insert member score) := by
  intro mem sc hsc
  by_cases he : mem = member
  · subst he
    rw [Finmap.lookup_insert] at hsc
    cases hsc
    exact hs
  · rw [Finmap.lookup_insert_of_ne _ he] at hsc
    exact h mem sc hsc

omit [LinearOrder S] in
theorem Scores.Within.erase (h : m.Within P) (member : Bytes) : Scores.Within P (m.erase member) := by
  intro mem sc hsc
  by_cases he : mem = member
  · subst he
    rw [Finmap.lookup_erase] at hsc
    cases hsc
  · rw [Finmap.lookup_erase_ne he] at hsc
    exact h mem sc hsc

theorem SkipIndex.Indexes.within (h : x.Indexes m E) (hP : m.Within P) : ∀ e ∈ E, P e.1 :=
  fun e he => hP e.2 e.1 ((h.mem_iff e.1 e.2).mp he)

theorem SkipIndex.Indexes.nodup (h : x.Indexes m E) : (E.map Prod.snd).Nodup := by
  have hE : E.Nodup := h.sorted.imp (fun hab => by
    rintro rfl
    exact lt_irrefl _ hab)
  refine hE.map_on ?_
  rintro ⟨sa, a⟩ ha ⟨sb, b⟩ hb rfl
  have h1 := (h.mem_iff sa a).mp ha
  rw [(h.mem_iff sb a).mp hb] at h1
  rw [Option.some.inj h1]

theorem SkipIndex.Indexes.keys_eq (h : x.Indexes m E) : m.keys = (E.map Prod.snd).toFinset := by
  ext member
  rw [Finmap.mem_keys, Finmap.mem_iff, List.mem_toFinset, List.mem_map]
  constructor
  · rintro ⟨score, hs⟩
    exact ⟨(score, member), (h.mem_iff score member).mpr hs, rfl⟩
  · rintro ⟨⟨score, _⟩, he, rfl⟩
    exact ⟨score, (h.mem_iff score _).mp he⟩

theorem SkipIndex.Indexes.length (h : x.Indexes m E) : m.keys.card = E.length := by
  rw [h.keys_eq, List.toFinset_card_of_nodup h.nodup, List.length_map]

variable [Score S]

theorem SkipIndex.Indexes.insert (cmp : Compares P) (h : x.Indexes m E) (hP : m.Within P) {member : Bytes}
    (hm : member ∉ m) {score : S} (hs : P score) (coins : List Bool) :
    ∃ E', (x.insert score member coins).Indexes (m.insert member score) E' := by
  obtain ⟨chain, C, hE⟩ := h.lists
  have hnew : (score, member) ∉ E := by
    intro hc
    rw [h.mem_iff] at hc
    exact hm (Finmap.mem_of_lookup_eq_some hc)
  obtain ⟨z, t, chain', F, G, hins, Ct, rfl, hE', sorted⟩ :=
    insert_sorted cmp C hE (h.within hP) h.sorted hs member hnew coins
  refine ⟨F ++ (score, member) :: G, ⟨chain', ?_, ?_⟩, sorted, ?_⟩
  · rw [SkipIndex.insert_list hins]
    exact Ct
  · rw [SkipIndex.insert_list hins]
    exact hE'
  · intro sc mem
    have hmem : (sc, mem) ∈ F ++ (score, member) :: G ↔
        (sc, mem) = (score, member) ∨ (sc, mem) ∈ F ++ G := by
      simp only [List.mem_append, List.mem_cons]
      tauto
    rw [hmem, h.mem_iff]
    by_cases he : mem = member
    · subst he
      rw [Finmap.lookup_insert, Finmap.lookup_eq_none.mpr hm]
      simp [eq_comm]
    · rw [Finmap.lookup_insert_of_ne _ he]
      simp [he]

theorem SkipIndex.Indexes.delete (cmp : Compares P) (h : x.Indexes m E) (hP : m.Within P)
    {member : Bytes} {score : S} (hm : m.lookup member = some score) :
    ∃ E', (x.delete score member).Indexes (m.erase member) E' := by
  obtain ⟨chain, C, hE⟩ := h.lists
  obtain ⟨t, chain', F, G, hdel, Ct, rfl, hE'⟩ :=
    delete_sorted cmp C hE (h.within hP) h.sorted ((h.mem_iff score member).mpr hm)
  obtain ⟨sF, sG, sFG⟩ := List.pairwise_append.mp h.sorted
  have sorted : (F ++ G).Pairwise (fun a b => toLex a < toLex b) :=
    List.pairwise_append.mpr ⟨sF, (List.pairwise_cons.mp sG).2,
      fun a ha b hb => sFG a ha b (List.mem_cons_of_mem _ hb)⟩
  have hself : (score, member) ∉ F ++ G := by
    intro hc
    rcases List.mem_append.mp hc with hc | hc
    · exact lt_irrefl _ (sFG _ hc (score, member) (by simp))
    · exact lt_irrefl _ ((List.pairwise_cons.mp sG).1 _ hc)
  refine ⟨F ++ G, ⟨chain', ?_, ?_⟩, sorted, ?_⟩
  · rw [SkipIndex.delete_list hdel]
    exact Ct
  · rw [SkipIndex.delete_list hdel]
    exact hE'
  · intro sc mem
    have hmem := h.mem_iff sc mem
    rw [List.mem_append, List.mem_cons] at hmem
    by_cases he : mem = member
    · subst he
      rw [Finmap.lookup_erase]
      constructor
      · intro hc
        have hsc : sc = score := by
          have := hmem.mp (by rcases List.mem_append.mp hc with hc | hc <;> tauto)
          rw [hm] at this
          exact (Option.some.inj this).symm
        subst hsc
        exact absurd hc hself
      · intro hc
        cases hc
    · rw [Finmap.lookup_erase_ne he, ← hmem, List.mem_append]
      have : (sc, mem) ≠ (score, member) := by simp [he]
      tauto

omit [Score S] in
/-- The entries before `e` are those with a smaller score, or its score and a smaller name. -/
theorem SkipIndex.Indexes.smaller_card {F G : List (S × Bytes)} {e : S × Bytes}
    (h : x.Indexes m (F ++ e :: G)) : (m.smaller e).card = F.length := by
  have hsmaller : m.smaller e = (F.map Prod.snd).toFinset := by
    obtain ⟨sF, sG, sFG⟩ := List.pairwise_append.mp h.sorted
    ext mem
    rw [Scores.smaller, Finset.mem_filter, List.mem_toFinset, List.mem_map]
    constructor
    · rintro ⟨-, sc, hsc, hlt⟩
      have hin := (h.mem_iff sc mem).mpr hsc
      rcases List.mem_append.mp hin with hin | hin
      · exact ⟨(sc, mem), hin, rfl⟩
      · rcases List.mem_cons.mp hin with heq | hin
        · rw [heq] at hlt
          exact absurd hlt (lt_irrefl _)
        · exact absurd ((List.pairwise_cons.mp sG).1 _ hin) (lt_asymm hlt)
    · rintro ⟨⟨sc, _⟩, hin, rfl⟩
      have hsc := (h.mem_iff sc _).mp (List.mem_append_left _ hin)
      exact ⟨Finmap.mem_keys.mpr (Finmap.mem_of_lookup_eq_some hsc), sc, hsc,
        sFG _ hin _ (by simp)⟩
  have hnodup : (F.map Prod.snd).Nodup := by
    have := h.nodup
    rw [List.map_append] at this
    exact (List.nodup_append.mp this).1
  rw [hsmaller, List.toFinset_card_of_nodup hnodup, List.length_map]

theorem SkipIndex.Indexes.rank (cmp : Compares P) (h : x.Indexes m E) (hP : m.Within P)
    {member : Bytes} {score : S} (hm : m.lookup member = some score) :
    x.list.getRank score member = some (some (UInt64.ofNat (m.smaller (score, member)).card)) := by
  obtain ⟨chain, C, hE⟩ := h.lists
  obtain ⟨F, G, rfl⟩ := List.append_of_mem ((h.mem_iff score member).mpr hm)
  rw [getRank_spec cmp C hE (h.within hP) h.sorted, h.smaller_card]

omit [Score S] in
theorem SkipIndex.Indexes.collect {z : ZSet S} (h : z.zsl.Indexes m E) (hsize : E.length < 2 ^ 64)
    (i n : Nat) (hn : i + n ≤ E.length) :
    z.collect i n = ((E.drop i).take n).map Prod.swap := by
  obtain ⟨chain, C, hE⟩ := h.lists
  induction n generalizing i with
  | zero => rfl
  | succ n ih =>
      have hi : i < E.length := by omega
      rw [ZSet.collect, getElementByRank_spec C hE i hi hsize, List.getElem?_eq_getElem hi,
        List.drop_eq_getElem_cons hi, List.take_succ_cons, List.map_cons, ih (i + 1) (by omega)]
      rfl

omit [LinearOrder S] [Score S] in
theorem bmod_small {i : Int} (h1 : -2 ^ 63 ≤ i) (h2 : i < 2 ^ 63) : Int.bmod i (2 ^ 64) = i := by
  refine Int.bmod_eq_of_le ?_ ?_
  · have h : ((2 ^ 64 : Nat) : Int) / 2 = 2 ^ 63 := by decide
    rw [h]
    exact h1
  · have h : (((2 ^ 64 : Nat) : Int) + 1) / 2 = 2 ^ 63 := by decide
    rw [h]
    exact h2

omit [LinearOrder S] [Score S] in
theorem asIsize_eq {n : UInt64} (h : n.toNat < 2 ^ 63) : asIsize n = n.toNat :=
  bmod_small (by omega) (by omega)

/-- The index that `x` stands for in a sequence of `n` elements: a negative one counts from the end. -/
def normIndex (n : Nat) (x : Int) : Int := if x < 0 then n + x else x

def IsIsize (x : Int) : Prop := -2 ^ 63 ≤ x ∧ x < 2 ^ 63

omit [LinearOrder S] [Score S] in
theorem isizeAdd_norm {n : Nat} (hn : n < 2 ^ 63) {x : Int} (hx : IsIsize x) :
    (if x < 0 then isizeAdd x n else x) = normIndex n x := by
  unfold normIndex
  split
  · rw [isizeAdd, Int.add_comm]
    exact bmod_small (by have := hx.1; omega) (by omega)
  · rfl

omit [Score S] in
/-- The two clamps: both ends of the range are moved up to 0 when they are below it. -/
theorem SkipIndex.Indexes.range {z : ZSet S} (h : z.zsl.Indexes z.dict E)
    (hsize : E.length < 2 ^ 63) {start stop : Int} (hstart : IsIsize start) (hstop : IsIsize stop) :
    z.range start stop = ((E.drop (normIndex E.length start).toNat).take
      ((normIndex E.length stop).toNat + 1 - (normIndex E.length start).toNat)).map Prod.swap := by
  have hlen : z.len.toNat = E.length := by
    rw [ZSet.len, h.length, toNat_ofNat_lt (by omega)]
  have hint : asIsize z.len = E.length := by rw [asIsize_eq (by omega), hlen]
  have hmax : ∀ x : Int, (max x 0).toNat = x.toNat := by omega
  unfold ZSet.range
  simp only [hint, hlen, isizeAdd_norm hsize hstart, isizeAdd_norm hsize hstop, hmax]
  generalize (normIndex E.length start).toNat = i
  generalize (normIndex E.length stop).toNat = j
  by_cases hout : i > j ∨ i ≥ E.length
  · rw [if_pos hout]
    rcases hout with hout | hout
    · rw [show j + 1 - i = 0 by omega]
      rfl
    · rw [List.drop_eq_nil_of_le hout]
      simp
  · have htake : (E.drop i).take (min j (E.length - 1) + 1 - i) = (E.drop i).take (j + 1 - i) := by
      rw [List.take_eq_take_iff, List.length_drop]
      omega
    rw [if_neg hout, h.collect (by omega) i _ (by omega), htake]

/-- A map with scores of `P` that the skip list is in step with. -/
structure ZSet.Indexed (P : S → Prop) (z : ZSet S) : Prop where
  within : Scores.Within P z.dict
  indexes : ∃ E, z.zsl.Indexes z.dict E

/-- One call keeps the skip list in step with the map and answers as the map does. -/
theorem step_indexed (cmp : Compares P) {z : ZSet S} (h : z.Indexed P) (op : ScoreOp S) (rt : Runtime)
    (hs : ∀ score member, op = .insert score member → P score) :
    (z.step (op, rt)).1 = (Scores.step z.dict op).1 ∧ (z.step (op, rt)).2.dict = (Scores.step z.dict op).2 ∧
      (z.step (op, rt)).2.Indexed P := by
  obtain ⟨hP, E, hE⟩ := h
  cases op with
  | insert score member =>
      have hscore := hs score member rfl
      simp only [ZSet.step, ZSet.insert, Scores.step]
      cases hl : z.dict.lookup member with
      | none =>
          have hm := Finmap.lookup_eq_none.mp hl
          exact ⟨by simp [hm], rfl, hP.insert hscore member, hE.insert cmp hP hm hscore rt.coins⟩
      | some old =>
          have hm : member ∈ z.dict := Finmap.mem_of_lookup_eq_some hl
          have hold := hP member old hl
          by_cases heq : old = score
          · subst heq
            have hsame : z.dict.insert member old = z.dict := by
              refine Finmap.ext_lookup (fun mem => ?_)
              by_cases he : mem = member
              · rw [he, Finmap.lookup_insert, hl]
              · rw [Finmap.lookup_insert_of_ne _ he]
            simp only [(cmp.equal_iff old old hold hold).mpr rfl, if_true, hsame]
            exact ⟨by simp [hm], trivial, hP, E, hE⟩
          · have hne : ¬ Score.equal old score = true :=
              fun hc => heq ((cmp.equal_iff old score hold hscore).mp hc)
            simp only [if_neg hne]
            obtain ⟨E₁, h₁⟩ := hE.delete cmp hP hl
            have hins : (z.dict.erase member).insert member score = z.dict.insert member score := by
              refine Finmap.ext_lookup (fun mem => ?_)
              by_cases he : mem = member
              · rw [he, Finmap.lookup_insert, Finmap.lookup_insert]
              · rw [Finmap.lookup_insert_of_ne _ he, Finmap.lookup_insert_of_ne _ he,
                  Finmap.lookup_erase_ne he]
            obtain ⟨E₂, h₂⟩ := h₁.insert cmp (hP.erase member) (Finmap.notMem_erase_self) hscore rt.coins
            rw [hins] at h₂
            exact ⟨by simp [hm], trivial, hP.insert hscore member, E₂, h₂⟩
  | delete member =>
      simp only [ZSet.step, ZSet.delete, Scores.step]
      cases hl : z.dict.lookup member with
      | none =>
          have hm := Finmap.lookup_eq_none.mp hl
          have hsame : z.dict.erase member = z.dict := by
            refine Finmap.ext_lookup (fun mem => ?_)
            by_cases he : mem = member
            · rw [he, Finmap.lookup_erase, hl]
            · rw [Finmap.lookup_erase_ne he]
          rw [hsame]
          exact ⟨by simp [hm], rfl, hP, E, hE⟩
      | some score =>
          have hm : member ∈ z.dict := Finmap.mem_of_lookup_eq_some hl
          exact ⟨by simp [hm], rfl, hP.erase member, hE.delete cmp hP hl⟩

theorem new_indexed : (ZSet.new : ZSet S).Indexed P := by
  refine ⟨by simp [Scores.Within, ZSet.new], [], ⟨[], new_chain, rfl⟩, List.Pairwise.nil, ?_⟩
  intro score member
  simp [ZSet.new]

end Ordered

section Total

variable [TotalScore S] {m : Scores S}

/-- The sorted set `z` stands for the map `m`. -/
def ZSet.Represents (z : ZSet S) (m : Scores S) : Prop :=
  z.dict = m ∧ ∃ E, z.zsl.Indexes m E

theorem ZSet.Indexed.represents {z : ZSet S} (h : z.Indexed (fun _ => True)) : z.Represents z.dict :=
  ⟨rfl, h.indexes⟩

theorem represents_new : (ZSet.new : ZSet S).Represents ∅ := new_indexed.represents

theorem step_represents {z : ZSet S} (h : z.Represents m) (op : ScoreOp S) (rt : Runtime) :
    (z.step (op, rt)).1 = (m.step op).1 ∧ (z.step (op, rt)).2.Represents (m.step op).2 := by
  obtain ⟨rfl, hE⟩ := h
  obtain ⟨hreply, hdict, hnext⟩ :=
    step_indexed compares_total ⟨fun _ _ _ => trivial, hE⟩ op rt (fun _ _ _ => trivial)
  refine ⟨hreply, ?_⟩
  rw [← hdict]
  exact hnext.represents

theorem run_represents (ops : List (ScoreOp S × Runtime)) {z : ZSet S} (h : z.Represents m) :
    (z.run ops).1 = (Scores.run m (ops.map Prod.fst)).1 ∧
      (z.run ops).2.Represents (Scores.run m (ops.map Prod.fst)).2 := by
  induction ops generalizing z m with
  | nil => exact ⟨rfl, h⟩
  | cons op ops ih =>
      obtain ⟨hb, h'⟩ := step_represents h op.1 op.2
      obtain ⟨hbs, h''⟩ := ih h'
      refine ⟨?_, h''⟩
      simp only [ZSet.run, Scores.run, List.map_cons]
      rw [← hb, ← hbs]

/-- Calls on a sorted set that starts empty answer as the map from members to
scores does, and so do the queries in the state they lead to, whatever levels
the skip list draws. Up to 2^63 members, the full range lists the map in order. -/
theorem zset_refines_map (ops : List (ScoreOp S × Runtime)) :
    let z := ((ZSet.new : ZSet S).run ops).2
    let m := (Scores.run (∅ : Scores S) (ops.map Prod.fst)).2
    ((ZSet.new : ZSet S).run ops).1 = (Scores.run (∅ : Scores S) (ops.map Prod.fst)).1 ∧
    (∀ member, z.score member = m.lookup member) ∧
    z.len = UInt64.ofNat m.keys.card ∧
    (∀ member, z.rank member =
      (m.lookup member).map (fun score => UInt64.ofNat (m.smaller (score, member)).card)) ∧
    (m.keys.card < 2 ^ 63 →
      (z.range 0 (-1)).Pairwise (fun a b => toLex a.swap < toLex b.swap) ∧
      ∀ member score, (member, score) ∈ z.range 0 (-1) ↔ m.lookup member = some score) := by
  intro z m
  obtain ⟨hreplies, hdict, E, hE⟩ := run_represents ops (represents_new (S := S))
  change z.dict = m at hdict
  change z.zsl.Indexes m E at hE
  refine ⟨hreplies, ?_, ?_, ?_, ?_⟩
  · intro member
    rw [ZSet.score, hdict]
  · rw [ZSet.len, hdict]
  · intro member
    rw [ZSet.rank, hdict]
    cases hl : m.lookup member with
    | none => rfl
    | some score => simp [hE.rank compares_total (fun _ _ _ => trivial) hl]
  · intro hsize
    rw [hE.length] at hsize
    have hrange : z.range 0 (-1) = E.map Prod.swap := by
      rw [SkipIndex.Indexes.range (by rw [hdict]; exact hE) hsize ⟨by omega, by omega⟩
        ⟨by omega, by omega⟩]
      have hlast : (normIndex E.length (-1)).toNat + 1 - (normIndex E.length 0).toNat ≥ E.length := by
        simp only [normIndex]
        omega
      rw [List.take_of_length_le (by rw [List.length_drop]; omega)]
      rfl
    rw [hrange]
    refine ⟨List.pairwise_map.mpr (hE.sorted.imp (fun h => by simpa using h)), ?_⟩
    intro member score
    rw [← hE.mem_iff, List.mem_map]
    constructor
    · rintro ⟨⟨sc, mem⟩, he, heq⟩
      cases heq
      exact he
    · intro he
      exact ⟨_, he, rfl⟩

/-- `out` lists, in order and with their scores, the members of `m` whose index
is between the two that `start` and `stop` stand for. -/
def Scores.Selects (m : Scores S) (start stop : Int) (out : List (Bytes × S)) : Prop :=
  out.Pairwise (fun a b => toLex a.swap < toLex b.swap) ∧
    ∀ member score, (member, score) ∈ out ↔ m.lookup member = some score ∧
      normIndex m.keys.card start ≤ ((m.smaller (score, member)).card : Int) ∧
      ((m.smaller (score, member)).card : Int) ≤ normIndex m.keys.card stop

/-- A slice of the entries selects its members by the index they have in the whole list. -/
theorem SkipIndex.Indexes.mem_slice {x : SkipIndex S} {E : List (S × Bytes)} (h : x.Indexes m E)
    (i j : Nat) (member : Bytes) (score : S) :
    (member, score) ∈ ((E.drop i).take (j + 1 - i)).map Prod.swap ↔
      m.lookup member = some score ∧ i ≤ (m.smaller (score, member)).card ∧
        (m.smaller (score, member)).card ≤ j := by
  have hindex : ∀ k (hk : k < E.length), (m.smaller E[k]).card = k := by
    intro k hk
    have hsplit : E = E.take k ++ E[k] :: E.drop (k + 1) := by
      rw [← List.drop_eq_getElem_cons hk, List.take_append_drop]
    have hcard := SkipIndex.Indexes.smaller_card (x := x) (m := m) (hsplit ▸ h)
    rw [hcard, List.length_take, Nat.min_eq_left hk.le]
  have hswap : (member, score) ∈ ((E.drop i).take (j + 1 - i)).map Prod.swap ↔
      (score, member) ∈ (E.drop i).take (j + 1 - i) := by
    rw [List.mem_map]
    constructor
    · rintro ⟨⟨sc, mem⟩, he, heq⟩
      cases heq
      exact he
    · intro he
      exact ⟨_, he, rfl⟩
  rw [hswap, List.mem_iff_getElem]
  constructor
  · rintro ⟨k, hk, he⟩
    rw [List.length_take, List.length_drop] at hk
    rw [List.getElem_take, List.getElem_drop] at he
    have hcard := hindex (i + k) (by omega)
    rw [he] at hcard
    rw [hcard]
    exact ⟨(h.mem_iff score member).mp (he ▸ List.getElem_mem _), by omega, by omega⟩
  · rintro ⟨hl, hi, hj⟩
    obtain ⟨k, hk, he⟩ := List.mem_iff_getElem.mp ((h.mem_iff score member).mpr hl)
    have hcard := hindex k hk
    rw [he] at hcard
    rw [hcard] at hi hj
    refine ⟨k - i, by rw [List.length_take, List.length_drop]; omega, ?_⟩
    rw [List.getElem_take, List.getElem_drop, ← he]
    congr 1
    omega

theorem SkipIndex.Indexes.slice_sorted {x : SkipIndex S} {E : List (S × Bytes)} (h : x.Indexes m E)
    (i j : Nat) : (((E.drop i).take j).map Prod.swap).Pairwise
      (fun a b => toLex a.swap < toLex b.swap) := by
  rw [List.pairwise_map]
  simp only [Prod.swap_swap]
  exact (h.sorted.drop).take

/-- An index below the first element is moved up to it, also where it ends the
range: the members are those the two indices select unless the sorted set has
members, the range ends before them and starts no later than at the first. -/
theorem range_selects_iff (ops : List (ScoreOp S × Runtime)) (start stop : Int) (hstart : IsIsize start)
    (hstop : IsIsize stop)
    (hsize : (Scores.run (∅ : Scores S) (ops.map Prod.fst)).2.keys.card < 2 ^ 63) :
    let z := ((ZSet.new : ZSet S).run ops).2
    let m := (Scores.run (∅ : Scores S) (ops.map Prod.fst)).2
    m.Selects start stop (z.range start stop) ↔
      m.keys.card = 0 ∨ -(m.keys.card : Int) ≤ stop ∨ 0 < normIndex m.keys.card start := by
  intro z m
  obtain ⟨-, hdict, E, hE⟩ := run_represents ops (represents_new (S := S))
  change z.dict = m at hdict
  change z.zsl.Indexes m E at hE
  change m.keys.card < 2 ^ 63 at hsize
  have hlen := hE.length
  have hrange := SkipIndex.Indexes.range (z := z) (by rw [hdict]; exact hE) (hlen ▸ hsize) hstart hstop
  have hstop' : -(m.keys.card : Int) ≤ stop ↔ 0 ≤ normIndex m.keys.card stop := by
    unfold normIndex
    split <;> omega
  rw [Scores.Selects, hrange, hstop', ← hlen]
  simp only [hE.slice_sorted, true_and, hE.mem_slice]
  constructor
  · -- the first member is in the slice, and its index is above the end of the range
    intro hall
    by_contra hno
    obtain ⟨hn, hneg, hfirst⟩ : m.keys.card ≠ 0 ∧ normIndex m.keys.card stop < 0 ∧
        normIndex m.keys.card start ≤ 0 := by omega
    obtain ⟨e, F, rfl⟩ := List.exists_cons_of_length_pos (l := E) (by omega)
    have hcard : (m.smaller (e.1, e.2)).card = 0 := hE.smaller_card (F := [])
    have hl := (hE.mem_iff e.1 e.2).mp (by simp)
    have := ((hall e.2 e.1).mp ⟨hl, by omega, by omega⟩).2.2
    omega
  · intro hcond member score
    have hlt : m.lookup member = some score → m.keys.card ≠ 0 := by
      intro hl hc
      rw [Finset.card_eq_zero] at hc
      have := Finmap.mem_keys.mpr (Finmap.mem_of_lookup_eq_some hl)
      rw [hc] at this
      exact Finset.notMem_empty _ this
    refine and_congr_right (fun hl => ?_)
    have := hlt hl
    omega

end Total

section Sample

open Text

attribute [local instance] wholeTotal

def oneMember : List (ScoreOp Nat × Runtime) := [(.insert 7 (ascii ['a']), ⟨[], 0, 0⟩)]

/-- ZRANGE 0 -5 on a sorted set of one member answers that member. -/
theorem range_before_first :
    ¬ Scores.Selects (Scores.run (∅ : Scores Nat) (oneMember.map Prod.fst)).2 0 (-5)
      (((ZSet.new : ZSet Nat).run oneMember).2.range 0 (-5)) := by
  intro h
  have hmem : (ascii ['a'], 7) ∈ ((ZSet.new : ZSet Nat).run oneMember).2.range 0 (-5) := by
    decide +kernel
  have hcard : (Scores.run (∅ : Scores Nat) (oneMember.map Prod.fst)).2.keys.card = 1 := rfl
  have hindex := ((h.2 _ _).mp hmem).2.2
  rw [hcard] at hindex
  simp only [normIndex] at hindex
  omega

/-- Three members, of which one gets another score. -/
def threeMembers : List (ScoreOp Nat × Runtime) :=
  [(.insert 7 (ascii ['a']), ⟨[true], 4, 4⟩), (.insert 3 (ascii ['b']), ⟨[], 4, 4⟩),
    (.insert 5 (ascii ['c']), ⟨[true, true], 4, 4⟩), (.insert 9 (ascii ['b']), ⟨[], 4, 4⟩)]

theorem range_selects_last :
    ((ZSet.new : ZSet Nat).run threeMembers).2.range (-2) (-1) = [(ascii ['a'], 7), (ascii ['b'], 9)] ∧
      Scores.Selects (Scores.run (∅ : Scores Nat) (threeMembers.map Prod.fst)).2 (-2) (-1)
        (((ZSet.new : ZSet Nat).run threeMembers).2.range (-2) (-1)) :=
  ⟨by decide +kernel, (range_selects_iff threeMembers (-2) (-1) ⟨by decide, by decide⟩ ⟨by decide, by decide⟩
    (by decide +kernel)).mpr (.inr (.inl (by decide +kernel)))⟩

end Sample

end RustKv.Zset
