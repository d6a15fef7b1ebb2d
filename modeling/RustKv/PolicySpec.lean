import RustKv.LruListSpec
import RustKv.Policy
import RustKv.Recency

namespace RustKv.Eviction

open SampleVec Recency

variable {K : Type} [DecidableEq K] {xs A B : List (Nat × K)} {place place' : K → Option Nat} {k : K} {p : Nat}

/-- `place` knows where each key of the list stands, and nothing else. -/
def Places (xs : List (Nat × K)) (place : K → Option Nat) : Prop :=
  ∀ k p, place k = some p ↔ (p, k) ∈ xs

theorem Places.push (h : Places xs place) (hk : place k = none) (p : Nat)
    (hp : ∀ k', place' k' = if k' = k then some p else place k') : Places (xs ++ [(p, k)]) place' := by
  intro k' q
  rw [hp, List.mem_append, List.mem_singleton, ← h k' q]
  by_cases he : k' = k
  · subst he
    simp [hk, eq_comm]
  · simp [he]

omit [DecidableEq K] in
theorem Places.moveBack (h : Places (A ++ (p, k) :: B) place) : Places (A ++ B ++ [(p, k)]) place := by
  intro k' q
  rw [h k' q]
  simp only [List.mem_append, List.mem_cons, List.not_mem_nil]
  tauto

theorem Places.remove (h : Places (A ++ (p, k) :: B) place)
    (nodup : ((A ++ (p, k) :: B).map Prod.fst).Nodup)
    (hp : ∀ k', place' k' = if k' = k then none else place k') : Places (A ++ B) place' := by
  obtain ⟨-, hA, hB, -⟩ := nodup_split nodup
  intro k' q
  rw [hp]
  by_cases he : k' = k
  · subst he
    simp only [if_true, reduceCtorEq, false_iff]
    intro hc
    have h1 : place k' = some p := (h k' p).mpr (by simp)
    have h2 : place k' = some q := (h k' q).mpr (by
      rcases List.mem_append.mp hc with hc | hc <;> simp [hc])
    rw [h1] at h2
    cases h2
    rcases List.mem_append.mp hc with hc | hc
    · exact hA (List.mem_map_of_mem hc)
    · exact hB (List.mem_map_of_mem hc)
  · rw [if_neg he, h k' q]
    simp [he]

/-- The list holds just the keys `keys`, in this order, where `place` says. -/
def Tracks (l : LruList K) (place : K → Option Nat) (keys : List K) : Prop :=
  ∃ xs, l.Lists xs ∧ Places xs place ∧ xs.map Prod.snd = keys

namespace Tracks

variable {l : LruList K} {keys : List K} {q : Nat}

omit [DecidableEq K] in
theorem mem_iff (h : Tracks l place keys) : k ∈ keys ↔ ∃ p, place k = some p := by
  obtain ⟨xs, -, hplaces, rfl⟩ := h
  rw [List.mem_map]
  constructor
  · rintro ⟨⟨p, k⟩, hx, rfl⟩
    exact ⟨p, (hplaces k p).mpr hx⟩
  · rintro ⟨p, hp⟩
    exact ⟨(p, k), (hplaces k p).mp hp, rfl⟩

omit [DecidableEq K] in
theorem nodup (h : Tracks l place keys) : keys.Nodup := by
  obtain ⟨xs, hxs, hplaces, rfl⟩ := h
  refine (List.Nodup.of_map Prod.fst hxs.nodup).map_on ?_
  rintro ⟨p, k⟩ hp ⟨p', k'⟩ hp' rfl
  have h1 := (hplaces k p).mpr hp
  rw [(hplaces k p').mpr hp'] at h1
  rw [Option.some_inj.mp h1]

/-- Without the pair of `k`, the list has the keys without `k`. -/
theorem forget_eq (hplaces : Places (A ++ (p, k) :: B) place)
    (nodup : ((A ++ (p, k) :: B).map Prod.fst).Nodup) :
    (A ++ B).map Prod.snd = forget k ((A ++ (p, k) :: B).map Prod.snd) := by
  have hplaces' : Places (A ++ B) (fun k' => if k' = k then none else place k') :=
    hplaces.remove nodup (fun _ => rfl)
  have hk : k ∉ (A ++ B).map Prod.snd := by
    intro hc
    obtain ⟨⟨p', _⟩, hx, rfl⟩ := List.mem_map.mp hc
    have := (hplaces' _ p').mpr hx
    simp at this
  rw [List.map_append, List.map_append, List.map_cons, forget, List.filter_append, List.filter_cons,
    if_neg (by simp), ← List.filter_append, ← List.map_append]
  exact (forget_of_notMem hk).symm

theorem move (h : Tracks l place keys) (hk : place k = some q) :
    ∃ l', l.pushMidBack q = some l' ∧ Tracks l' place (touch k keys) := by
  obtain ⟨xs, hxs, hplaces, rfl⟩ := h
  obtain ⟨A, B, rfl⟩ := List.append_of_mem ((hplaces k q).mp hk)
  obtain ⟨l', hl', hlists⟩ := pushMidBack_spec hxs
  refine ⟨l', hl', _, hlists, hplaces.moveBack, ?_⟩
  rw [touch, ← forget_eq hplaces hxs.nodup, List.map_append]
  rfl

theorem remove (h : Tracks l place keys) (hk : place k = some q) :
    ∃ l', l.popNode q = some l' ∧ ∀ place' : K → Option Nat,
      (∀ k', place' k' = if k' = k then none else place k') → Tracks l' place' (forget k keys) := by
  obtain ⟨xs, hxs, hplaces, rfl⟩ := h
  obtain ⟨A, B, rfl⟩ := List.append_of_mem ((hplaces k q).mp hk)
  obtain ⟨l', hl', hlists⟩ := popNode_spec hxs
  exact ⟨l', hl', fun place' hp =>
    ⟨_, hlists, hplaces.remove hxs.nodup hp, forget_eq hplaces hxs.nodup⟩⟩

theorem push (h : Tracks l place keys) (hk : place k = none) :
    ∃ q l', l.pushBack k = some (q, l') ∧ ∀ place' : K → Option Nat,
      (∀ k', place' k' = if k' = k then some q else place k') → Tracks l' place' (touch k keys) := by
  have hnot : k ∉ keys := by
    rw [h.mem_iff]
    simp [hk]
  obtain ⟨xs, hxs, hplaces, rfl⟩ := h
  obtain ⟨q, l', hl', hlists⟩ := pushBack_spec hxs k
  refine ⟨q, l', hl', fun place' hp => ⟨_, hlists, hplaces.push hk q hp, ?_⟩⟩
  rw [touch, forget_of_notMem hnot, List.map_append]
  rfl

omit [DecidableEq K] in
theorem peekFront (h : Tracks l place keys) : l.peekFront = some keys.head? := by
  obtain ⟨xs, hxs, -, rfl⟩ := h
  rw [peekFront_spec hxs, List.head?_map]

omit [DecidableEq K] in
theorem isEmpty_iff (h : Tracks l place keys) : l.isEmpty = true ↔ keys = [] := by
  obtain ⟨xs, hxs, -, rfl⟩ := h
  rw [Eviction.isEmpty_iff hxs, List.map_eq_nil_iff]

omit [DecidableEq K] in
theorem new (h : ∀ k, place k = none) : Tracks (LruList.new : LruList K) place [] :=
  ⟨[], lists_new, fun k p => by simp [h k], rfl⟩

end Tracks

def LruNode.ptr (n : LruNode K) (k : K) : Option Nat := (n.mapKey.lookup k).map MetaPointers.lruNode

def LruNode.idx (n : LruNode K) (k : K) : Option Nat := (n.mapKey.lookup k).map MetaPointers.sampleIdx

structure LruNode.WF (n : LruNode K) : Prop where
  lists : ∃ xs, n.list.Lists xs ∧ Places xs n.ptr
  sampled : Sampled n.sampleKeys n.idx

/-- The policy holds the keys of `order`, the one used longest ago first. -/
structure LruNode.Holds (n : LruNode K) (order : List K) : Prop where
  tracks : Tracks n.list n.ptr order
  sampled : Sampled n.sampleKeys n.idx

variable {n : LruNode K} {order : List K}

theorem LruNode.Holds.wf (h : n.Holds order) : n.WF := by
  obtain ⟨xs, hxs, hplaces, -⟩ := h.tracks
  exact ⟨⟨xs, hxs, hplaces⟩, h.sampled⟩

theorem LruNode.WF.holds (h : n.WF) : ∃ order, n.Holds order := by
  obtain ⟨xs, hxs, hplaces⟩ := h.lists
  exact ⟨_, ⟨xs, hxs, hplaces, rfl⟩, h.sampled⟩

theorem LruNode.new_holds : (LruNode.new : LruNode K).Holds [] where
  tracks := Tracks.new (fun _ => rfl)
  sampled k i := by simp [LruNode.idx, LruNode.new]

theorem LruNode.Holds.mem_iff (h : n.Holds order) : k ∈ order ↔ k ∈ n.mapKey := by
  rw [h.tracks.mem_iff, Finmap.mem_iff]
  simp [LruNode.ptr]

theorem LruNode.touch_holds {m : MetaPointers} (h : n.Holds order) (hm : n.mapKey.lookup k = some m) :
    ∃ list, n.list.pushMidBack m.lruNode = some list ∧ LruNode.Holds { n with list := list } (touch k order) := by
  obtain ⟨list, hlist, htracks⟩ := h.tracks.move (k := k) (q := m.lruNode) (by simp [LruNode.ptr, hm])
  exact ⟨list, hlist, htracks, h.sampled⟩

section Repair

variable {V W : Type}

theorem map_lookup_insert (m : Finmap (fun _ : K => V)) (k : K) (v : V) (g : V → W) (k' : K) :
    ((m.insert k v).lookup k').map g = if k' = k then some (g v) else (m.lookup k').map g := by
  rw [lookup_insert_ite, apply_ite (Option.map g), Option.map_some]

/-- The map that a deletion leaves: without the key, and with the index of the
key that moved into its place repaired. -/
def repaired (m : Finmap (fun _ : K => V)) (k : K) (ys : List K) (i : Nat) (f : V → V) :
    Finmap (fun _ : K => V) :=
  match ys[i]? with
  | some moved => adjust (m.erase k) moved f
  | none => m.erase k

theorem lookup_repaired (m : Finmap (fun _ : K => V)) (k : K) (ys : List K) (i : Nat) (f : V → V)
    (k' : K) : (repaired m k ys i f).lookup k' = if k' = k then none
      else if ys[i]? = some k' then (m.lookup k').map f else m.lookup k' := by
  unfold repaired
  by_cases he : k' = k
  · subst he
    cases ys[i]? with
    | none => simp
    | some moved => simp [lookup_adjust]
  · cases ys[i]? with
    | none => simp [he, Finmap.lookup_erase_ne he]
    | some moved =>
        simp only [lookup_adjust, Finmap.lookup_erase_ne he, Option.some.injEq, if_neg he]
        by_cases hmv : k' = moved
        · simp [hmv]
        · rw [if_neg hmv, if_neg (Ne.symm hmv)]

/-- The deletion leaves the other keys what the repair does not change. -/
theorem map_lookup_repaired (m : Finmap (fun _ : K => V)) (k : K) (ys : List K) (i : Nat) {f : V → V}
    {g : V → W} (hg : ∀ v, g (f v) = g v) (k' : K) :
    ((repaired m k ys i f).lookup k').map g = if k' = k then none else (m.lookup k').map g := by
  rw [lookup_repaired]
  split
  · rfl
  · split
    · rw [Option.map_map]
      exact congrArg (fun f => (m.lookup k').map f) (funext hg)
    · rfl

/-- The key that moved has the index `i`. -/
theorem map_lookup_repaired_index (m : Finmap (fun _ : K => V)) (k : K) (ys : List K) (i : Nat) {f : V → V}
    {g : V → Nat} (hg : ∀ v, g (f v) = i)
    (hmoved : ∀ k', ys[i]? = some k' → ∃ j, (m.lookup k').map g = some j) (k' : K) :
    ((repaired m k ys i f).lookup k').map g =
      if k' = k then none else if ys[i]? = some k' then some i else (m.lookup k').map g := by
  rw [lookup_repaired]
  split
  · rfl
  · split
    · next hk' =>
      obtain ⟨j, hj⟩ := hmoved k' hk'
      obtain ⟨v, hv, -⟩ := Option.map_eq_some_iff.mp hj
      rw [hv, Option.map_some, Option.map_some, hg]
    · rfl

end Repair

theorem LruNode.onWrite_holds (h : n.Holds order) (k : K) :
    ∃ n', n.onWrite k = some n' ∧ n'.Holds (touch k order) := by
  unfold LruNode.onWrite
  cases hm : n.mapKey.lookup k with
  | some m =>
      obtain ⟨list, hlist, hholds⟩ := LruNode.touch_holds h hm
      exact ⟨{ n with list := list }, by simp [hlist], hholds⟩
  | none =>
      obtain ⟨p, list, hlist, htracks⟩ := h.tracks.push (k := k) (by simp [LruNode.ptr, hm])
      refine ⟨⟨list, n.sampleKeys ++ [k], n.mapKey.insert k ⟨p, n.sampleKeys.length⟩⟩,
        by simp [hlist], htracks _ (fun k' => ?_), ?_⟩
      · exact map_lookup_insert n.mapKey k ⟨p, n.sampleKeys.length⟩ MetaPointers.lruNode k'
      · have hpush := h.sampled.push (k := k) (by simp [LruNode.idx, hm])
        convert hpush using 2 with k'
        exact map_lookup_insert n.mapKey k ⟨p, n.sampleKeys.length⟩ MetaPointers.sampleIdx k'

theorem LruNode.onRead_holds (h : n.Holds order) (k : K) :
    ∃ n', n.onRead k = some n' ∧ n'.Holds (if k ∈ order then touch k order else order) := by
  unfold LruNode.onRead
  cases hm : n.mapKey.lookup k with
  | some m =>
      obtain ⟨list, hlist, hholds⟩ := LruNode.touch_holds h hm
      rw [if_pos (h.mem_iff.mpr (Finmap.mem_of_lookup_eq_some hm))]
      exact ⟨{ n with list := list }, by simp [hlist], hholds⟩
  | none =>
      rw [if_neg (fun hc => Finmap.lookup_eq_none.mp hm (h.mem_iff.mp hc))]
      exact ⟨n, rfl, h⟩

theorem LruNode.onDelete_holds (h : n.Holds order) (k : K) :
    ∃ n', n.onDelete k = some n' ∧ n'.Holds (forget k order) := by
  unfold LruNode.onDelete
  cases hm : n.mapKey.lookup k with
  | none =>
      rw [forget_of_notMem (fun hc => Finmap.lookup_eq_none.mp hm (h.mem_iff.mp hc))]
      exact ⟨n, rfl, h⟩
  | some m =>
      obtain ⟨ys, hys, hmoved, hsampled⟩ :=
        h.sampled.swapRemove (k := k) (i := m.sampleIdx) (by simp [LruNode.idx, hm])
      obtain ⟨list, hlist, htracks⟩ := h.tracks.remove (k := k) (q := m.lruNode)
        (by simp [LruNode.ptr, hm])
      refine ⟨⟨list, ys, repaired n.mapKey k ys m.sampleIdx
        (fun p => { p with sampleIdx := m.sampleIdx })⟩, ?_, htracks _ (fun k' => ?_), ?_⟩
      · simp only [hlist, hys, Option.bind_eq_bind, Option.bind_some]
        rfl
      · simp only [LruNode.ptr]
        apply map_lookup_repaired
        intro p
        rfl
      · convert hsampled using 2 with k'
        simp only [LruNode.idx]
        apply map_lookup_repaired_index _ _ _ _ _ hmoved
        intro p
        rfl

theorem LruNode.popVictim_holds (h : n.Holds order) : n.popVictim = some order.head? :=
  h.tracks.peekFront

section Buckets

variable {bs : List (LruList K)} {ptr ptr' : Nat → K → Option Nat} {keys : Nat → List K}
variable {b : LruList K} {f q : Nat}

/-- Every bucket is a list of the keys that `ptr` places in it. -/
def Buckets (bs : List (LruList K)) (ptr : Nat → K → Option Nat) : Prop :=
  ∀ f b, bs[f]? = some b → ∃ xs, b.Lists xs ∧ Places xs (ptr f)

/-- The bucket of each frequency holds the keys that `keys` lists for it. -/
def BucketsHold (bs : List (LruList K)) (ptr : Nat → K → Option Nat) (keys : Nat → List K) : Prop :=
  ∀ f b, bs[f]? = some b → Tracks b (ptr f) (keys f)

/-- The keys of the buckets once `k` is the last one in the bucket of `f`, and in no other. -/
def moveTo (keys : Nat → List K) (k : K) (f : Nat) (g : Nat) : List K :=
  if g = f then touch k (keys g) else forget k (keys g)

omit [DecidableEq K] in
theorem Buckets.hold (h : Buckets bs ptr) : ∃ keys, BucketsHold bs ptr keys := by
  have hf : ∀ f, ∃ ks, ∀ b, bs[f]? = some b → Tracks b (ptr f) ks := by
    intro f
    cases hb : bs[f]? with
    | none => exact ⟨[], by simp⟩
    | some b =>
        obtain ⟨xs, hxs, hplaces⟩ := h f b hb
        refine ⟨xs.map Prod.snd, fun b' hb' => ?_⟩
        cases hb'
        exact ⟨xs, hxs, hplaces, rfl⟩
  choose keys hkeys using hf
  exact ⟨keys, fun f b hb => hkeys f b hb⟩

namespace BucketsHold

omit [DecidableEq K] in
theorem buckets (h : BucketsHold bs ptr keys) : Buckets bs ptr := by
  intro f b hb
  obtain ⟨xs, hxs, hplaces, -⟩ := h f b hb
  exact ⟨xs, hxs, hplaces⟩

omit [DecidableEq K] in
theorem congr (h : BucketsHold bs ptr keys) {keys' : Nat → List K} (hptr : ∀ g k, ptr' g k = ptr g k)
    (hkeys : ∀ g, keys' g = keys g) : BucketsHold bs ptr' keys' := by
  obtain rfl : ptr' = ptr := funext (fun g => funext (hptr g))
  obtain rfl : keys' = keys := funext hkeys
  exact h

/-- One bucket is exchanged. `k` is not in the others. -/
theorem set (h : BucketsHold bs ptr keys) {keys' : Nat → List K} (hb : Tracks b (ptr' f) (keys' f))
    (hptr : ∀ g, f ≠ g → ptr g k = none) (other : ∀ g, f ≠ g → ptr' g = ptr g)
    (hkeys : ∀ g, f ≠ g → keys' g = forget k (keys g)) : BucketsHold (bs.set f b) ptr' keys' := by
  intro g c hc
  rw [List.getElem?_set] at hc
  split at hc
  · next hg =>
    subst hg
    split at hc
    · cases hc
      exact hb
    · cases hc
  · next hg =>
    have htracks := h g c hc
    have hnot : k ∉ keys g := by
      rw [htracks.mem_iff]
      simp [hptr g hg]
    rw [other g hg, hkeys g hg, forget_of_notMem hnot]
    exact htracks

theorem touch (h : BucketsHold bs ptr keys) (hb : bs[f]? = some b)
    (hk : ∀ g, ptr g k = if f = g then some q else none) :
    ∃ b', b.pushMidBack q = some b' ∧ BucketsHold (bs.set f b') ptr (moveTo keys k f) := by
  obtain ⟨b', hb', htracks⟩ := (h f b hb).move (k := k) (q := q) (by simp [hk])
  refine ⟨b', hb', h.set (k := k) (by simpa [moveTo] using htracks) ?_ (fun _ _ => rfl) ?_⟩
  · intro g hg
    rw [hk, if_neg hg]
  · intro g hg
    rw [moveTo, if_neg (Ne.symm hg)]

theorem remove (h : BucketsHold bs ptr keys) (hb : bs[f]? = some b)
    (hk : ∀ g, ptr g k = if f = g then some q else none) :
    ∃ b', b.popNode q = some b' ∧
      BucketsHold (bs.set f b') (fun g k' => if k' = k then none else ptr g k')
        (fun g => forget k (keys g)) := by
  have hnone : ∀ g, f ≠ g → ptr g k = none := by
    intro g hg
    rw [hk, if_neg hg]
  obtain ⟨b', hb', htracks⟩ := (h f b hb).remove (k := k) (q := q) (by simp [hk])
  refine ⟨b', hb', h.set (k := k) (htracks _ (fun _ => rfl)) hnone ?_ (fun _ _ => rfl)⟩
  intro g hg
  funext k'
  split
  · next he => rw [he, hnone g hg]
  · rfl

theorem push (h : BucketsHold bs ptr keys) (hb : bs[f]? = some b) (hk : ∀ g, ptr g k = none) :
    ∃ q b', b.pushBack k = some (q, b') ∧ BucketsHold (bs.set f b')
      (fun g k' => if k' = k then (if f = g then some q else none) else ptr g k') (moveTo keys k f) := by
  obtain ⟨q, b', hb', htracks⟩ := (h f b hb).push (k := k) (hk f)
  have htracks' := htracks (fun k' => if k' = k then (if f = f then some q else none) else ptr f k')
    (fun _ => by simp)
  refine ⟨q, b', hb', h.set (k := k) (by simpa [moveTo] using htracks') (fun g _ => hk g) ?_ ?_⟩
  · intro g hg
    funext k'
    split
    · next he => rw [he, hk]
    · rfl
  · intro g hg
    rw [moveTo, if_neg (Ne.symm hg)]

end BucketsHold

end Buckets

/-- Where a key stands in the bucket of frequency `f`. -/
def LfuNode.ptr (n : LfuNode K) (f : Nat) (k : K) : Option Nat :=
  (n.mapKey.lookup k).bind (fun m => if m.freq = f then some m.lruNode else none)

def LfuNode.idx (n : LfuNode K) (k : K) : Option Nat :=
  (n.mapKey.lookup k).map LfuMetaPointers.sampleIdx

def LfuNode.freq (n : LfuNode K) (k : K) : Option Nat :=
  (n.mapKey.lookup k).map LfuMetaPointers.freq

structure LfuNode.WF (n : LfuNode K) : Prop where
  length : n.buckets.length = 256
  buckets : Buckets n.buckets n.ptr
  freq_le : ∀ k m, n.mapKey.lookup k = some m → m.freq ≤ 255
  minFreq_le : n.minFreq ≤ 255
  sampled : Sampled n.sampleKeys n.idx

/-- The policy holds the keys of `keys`, in the bucket of each frequency the one
used longest ago first. -/
structure LfuNode.Holds (n : LfuNode K) (keys : Nat → List K) : Prop where
  length : n.buckets.length = 256
  buckets : BucketsHold n.buckets n.ptr keys
  freq_le : ∀ k m, n.mapKey.lookup k = some m → m.freq ≤ 255
  minFreq_le : n.minFreq ≤ 255
  sampled : Sampled n.sampleKeys n.idx

/-- No frequency is below min_freq. -/
def LfuNode.Ranked (n : LfuNode K) : Prop :=
  ∀ k f, n.freq k = some f → 1 ≤ f ∧ n.minFreq ≤ f

variable {n : LfuNode K} {f : Nat} {keys : Nat → List K}

theorem LfuNode.Holds.wf (h : n.Holds keys) : n.WF :=
  ⟨h.length, h.buckets.buckets, h.freq_le, h.minFreq_le, h.sampled⟩

theorem LfuNode.WF.holds (h : n.WF) : ∃ keys, n.Holds keys := by
  obtain ⟨keys, hkeys⟩ := h.buckets.hold
  exact ⟨keys, h.length, hkeys, h.freq_le, h.minFreq_le, h.sampled⟩

theorem LfuNode.lookup_new (k : K) : (LfuNode.new : LfuNode K).mapKey.lookup k = none := rfl

omit [DecidableEq K] in
theorem LfuNode.sampleKeys_new : (LfuNode.new : LfuNode K).sampleKeys = [] := rfl

theorem LfuNode.new_holds : (LfuNode.new : LfuNode K).Holds (fun _ => []) where
  length := List.length_replicate
  buckets f b hb := by
    have hb' : b = LruList.new := (List.mem_replicate.mp (List.mem_of_getElem? hb)).2
    subst hb'
    exact Tracks.new (fun k => by simp [LfuNode.ptr, lookup_new])
  freq_le k m h := by simp [lookup_new] at h
  minFreq_le := show 1 ≤ 255 by decide
  sampled k i := by simp [LfuNode.idx, lookup_new, sampleKeys_new]

theorem LfuNode.new_ranked : (LfuNode.new : LfuNode K).Ranked := by
  intro k f h
  simp [LfuNode.freq, lookup_new] at h

theorem LfuNode.Holds.bucket (h : n.Holds keys) (hf : f ≤ 255) : ∃ b, n.buckets[f]? = some b := by
  have hlt : f < n.buckets.length := by
    rw [h.length]
    omega
  exact ⟨_, List.getElem?_eq_getElem hlt⟩

/-- A key stands in the bucket of its frequency, and in no other. -/
theorem LfuNode.Holds.mem_iff (h : n.Holds keys) (hf : f ≤ 255) : k ∈ keys f ↔ n.freq k = some f := by
  obtain ⟨b, hb⟩ := h.bucket hf
  rw [(h.buckets f b hb).mem_iff]
  cases hm : n.mapKey.lookup k with
  | none => simp [LfuNode.ptr, LfuNode.freq, hm]
  | some m => simp [LfuNode.ptr, LfuNode.freq, hm]

theorem LfuNode.Holds.freq_range (h : n.Holds keys) (hk : n.freq k = some f) : f ≤ 255 := by
  obtain ⟨m, hm, rfl⟩ := Option.map_eq_some_iff.mp hk
  exact h.freq_le k m hm

omit [DecidableEq K] in
/-- The search stops at the first bucket that is not empty, or at the last one. -/
theorem firstFilled_spec {bs : List (LruList K)} (hlen : bs.length = 256) (fuel freq : Nat)
    (h : freq + fuel = 255) :
    ∃ m, freq ≤ m ∧ m ≤ 255 ∧ firstFilled bs fuel freq = some m ∧
      (∀ g b, freq ≤ g → g < m → bs[g]? = some b → b.isEmpty = true) ∧
      (m < 255 → ∀ b, bs[m]? = some b → b.isEmpty = false) := by
  induction fuel generalizing freq with
  | zero => exact ⟨freq, le_refl _, by omega, rfl, fun g b h1 h2 => by omega, fun hlt => by omega⟩
  | succ fuel ih =>
      have hb := List.getElem?_eq_getElem (l := bs) (i := freq) (by omega)
      simp only [firstFilled, hb, Option.bind_eq_bind, Option.bind_some]
      by_cases hempty : bs[freq].isEmpty = true
      · obtain ⟨m, hle, hm, hfirst, hskip, hstop⟩ := ih (freq + 1) (by omega)
        rw [if_pos hempty]
        refine ⟨m, by omega, hm, hfirst, ?_, hstop⟩
        intro g b hg hgm hgb
        by_cases he : g = freq
        · rw [he, hb] at hgb
          cases hgb
          exact hempty
        · exact hskip g b (by omega) hgm hgb
      · rw [if_neg hempty]
        refine ⟨freq, le_refl _, by omega, rfl, fun g b h1 h2 => by omega, ?_⟩
        intro _ b hgb
        rw [hb] at hgb
        cases hgb
        simpa using hempty

theorem LfuNode.Holds.withMinFreq (h : n.Holds keys) {m : Nat} (hm : m ≤ 255) :
    LfuNode.Holds { n with minFreq := m } keys :=
  ⟨h.length, h.buckets, h.freq_le, hm, h.sampled⟩

/-- A key is in no bucket that is empty. -/
theorem LfuNode.Holds.least_le (h : n.Holds keys) (hr : n.Ranked) {m : Nat}
    (hempty : ∀ g, n.minFreq ≤ g → g < m → keys g = []) (hk : n.freq k = some f) : m ≤ f := by
  by_contra hlt
  have hmem := (h.mem_iff (h.freq_range hk)).mpr hk
  rw [hempty f (hr k f hk).2 (Nat.not_le.mp hlt)] at hmem
  cases hmem

/-- The search for the smallest frequency skips empty buckets only. It comes to the
end without finding a key, and starts over at 1, only when there is none. -/
theorem LfuNode.Holds.updateMinFreq (h : n.Holds keys) :
    ∃ m, m ≤ 255 ∧ n.updateMinFreq = some { n with minFreq := m } ∧
      (n.Ranked → LfuNode.Ranked { n with minFreq := m } ∧
        (keys m = [] → ∀ k, n.freq k = none)) := by
  obtain ⟨top, htop⟩ := h.bucket (f := 255) (le_refl _)
  obtain ⟨m, hle, hm, hfirst, hskip, hstop⟩ :=
    firstFilled_spec h.length (255 - n.minFreq) n.minFreq (by have := h.minFreq_le; omega)
  have hempty : ∀ g, n.minFreq ≤ g → g < m → keys g = [] := by
    intro g h1 h2
    obtain ⟨b, hb⟩ := h.bucket (f := g) (by omega)
    exact (h.buckets g b hb).isEmpty_iff.mp (hskip g b h1 h2 hb)
  have hupdate : n.updateMinFreq =
      some { n with minFreq := if m = 255 ∧ top.isEmpty then 1 else m } := by
    simp only [LfuNode.updateMinFreq, hfirst, htop, Option.bind_eq_bind, Option.bind_some]
  by_cases hreset : m = 255 ∧ top.isEmpty = true
  · rw [if_pos hreset] at hupdate
    refine ⟨1, by omega, hupdate, fun hr => ?_⟩
    have hall : ∀ k, n.freq k = none := by
      intro k
      rw [Option.eq_none_iff_forall_ne_some]
      intro f hk
      have hf : 256 ≤ f := by
        refine h.least_le hr (fun g h1 h2 => ?_) hk
        by_cases hg : g < m
        · exact hempty g h1 hg
        · obtain rfl : g = 255 := by omega
          exact (h.buckets 255 top htop).isEmpty_iff.mp hreset.2
      have hrange := h.freq_range hk
      omega
    refine ⟨?_, fun _ => hall⟩
    intro k f hk
    have hk' : n.freq k = some f := hk
    rw [hall k] at hk'
    cases hk'
  · rw [if_neg hreset] at hupdate
    refine ⟨m, hm, hupdate, fun hr => ⟨?_, ?_⟩⟩
    · intro k f hk
      exact ⟨(hr k f hk).1, h.least_le hr hempty hk⟩
    · intro hkeys
      obtain ⟨b, hb⟩ := h.bucket hm
      have hb' : b.isEmpty = true := (h.buckets m b hb).isEmpty_iff.mpr hkeys
      by_cases hlt : m < 255
      · rw [hstop hlt b hb] at hb'
        cases hb'
      · obtain rfl : m = 255 := by omega
        rw [htop] at hb
        cases hb
        exact absurd ⟨rfl, hb'⟩ hreset

theorem LfuNode.Holds.settle (h : n.Holds keys) (hf : f ≤ 255) :
    ∃ m, m ≤ 255 ∧ n.settleMinFreq f = some { n with minFreq := m } ∧
      (n.Ranked → LfuNode.Ranked { n with minFreq := m }) := by
  obtain ⟨b, hb⟩ := h.bucket hf
  simp only [LfuNode.settleMinFreq, hb, Option.bind_eq_bind, Option.bind_some]
  split
  · obtain ⟨m, hm, hupdate, hranked⟩ := h.updateMinFreq
    exact ⟨m, hm, hupdate, fun hr => (hranked hr).1⟩
  · exact ⟨n.minFreq, h.minFreq_le, rfl, id⟩

theorem LfuNode.ptr_eq {m : LfuMetaPointers} (hm : n.mapKey.lookup k = some m) (g : Nat) :
    n.ptr g k = if m.freq = g then some m.lruNode else none := by
  simp [LfuNode.ptr, hm]

theorem LfuNode.onRead_untracked (hk : n.freq k = none) : n.onRead k = some n := by
  rw [LfuNode.freq, Option.map_eq_none_iff] at hk
  simp only [LfuNode.onRead, hk]

theorem LfuNode.Ranked.raise {n' : LfuNode K} (hr : n.Ranked) (hmin : n'.minFreq = n.minFreq)
    (hfreq : ∀ k f', n'.freq k = some f' → ∃ f, f ≤ f' ∧ n.freq k = some f) : n'.Ranked := by
  intro k f' hk'
  obtain ⟨f, hle, hk⟩ := hfreq k f' hk'
  have hf := hr k f hk
  rw [hmin]
  omega

/-- At the top the key comes to the end of its bucket. -/
theorem LfuNode.onRead_top (h : n.Holds keys) (hk : n.freq k = some 255) :
    ∃ n', n.onRead k = some n' ∧ n'.Holds (moveTo keys k 255) ∧ n'.freq = n.freq ∧ n'.minFreq = n.minFreq := by
  obtain ⟨m, hm, hfreq⟩ := Option.map_eq_some_iff.mp hk
  obtain ⟨old, hold⟩ := h.bucket (le_refl 255)
  obtain ⟨b, hb, hbuckets⟩ := h.buckets.touch (k := k) (q := m.lruNode) hold
    (fun g => by rw [LfuNode.ptr_eq hm, hfreq])
  refine ⟨{ n with buckets := n.buckets.set 255 b }, ?_, ⟨by simp [h.length], hbuckets,
    h.freq_le, h.minFreq_le, h.sampled⟩, rfl, rfl⟩
  have hnew : (if 255 + 1 > 255 then 255 else 255 + 1) = 255 := rfl
  simp only [LfuNode.onRead, hm, hfreq, hnew, hold, hb, ne_eq, not_true_eq_false, if_false,
    Option.bind_eq_bind, Option.bind_some]

/-- Below the top it goes from its bucket to the next one. -/
theorem LfuNode.onRead_below (h : n.Holds keys) (hk : n.freq k = some f) (hf : f < 255) :
    ∃ n', n.onRead k = some n' ∧ n'.Holds (moveTo keys k (f + 1)) ∧
      (∀ k', n'.freq k' = if k' = k then some (f + 1) else n.freq k') ∧ (n.Ranked → n'.Ranked) := by
  obtain ⟨m, hm, rfl⟩ := Option.map_eq_some_iff.mp hk
  obtain ⟨old, hold⟩ := h.bucket (Nat.le_of_lt hf)
  obtain ⟨b₁, hb₁, hremoved⟩ := h.buckets.remove hold (LfuNode.ptr_eq hm)
  obtain ⟨new, hnext⟩ := h.bucket (f := m.freq + 1) hf
  have hnext' : (n.buckets.set m.freq b₁)[m.freq + 1]? = some new := by
    rw [List.getElem?_set_ne (by omega), hnext]
  obtain ⟨q, b₂, hb₂, hplaced⟩ := hremoved.push (k := k) hnext' (by simp)
  have hholds : LfuNode.Holds { n with
      buckets := (n.buckets.set m.freq b₁).set (m.freq + 1) b₂
      mapKey := n.mapKey.insert k { m with freq := m.freq + 1, lruNode := q } }
      (moveTo keys k (m.freq + 1)) := by
    refine ⟨by simp [h.length], ?_, ?_, h.minFreq_le, ?_⟩
    · refine hplaced.congr (fun g k' => ?_) (fun g => ?_)
      · simp only [LfuNode.ptr, lookup_insert_ite]
        by_cases he : k' = k
        · simp [he]
        · simp [he]
      · simp only [moveTo, touch_forget, forget_forget]
    · intro k' m' hm'
      simp only [lookup_insert_ite] at hm'
      split at hm'
      · cases hm'
        exact hf
      · exact h.freq_le k' m' hm'
    · convert h.sampled using 1
      funext k'
      simp only [LfuNode.idx, map_lookup_insert]
      split
      · next he => rw [he, hm, Option.map_some]
      · rfl
  have hfreq := map_lookup_insert n.mapKey k { m with freq := m.freq + 1, lruNode := q }
    LfuMetaPointers.freq
  obtain ⟨mf, hmf, hsettle, hranked⟩ := hholds.settle (Nat.le_of_lt hf)
  refine ⟨_, ?_, hholds.withMinFreq hmf, hfreq, fun hr => hranked (hr.raise rfl ?_)⟩
  · have hnew : (if m.freq + 1 > 255 then 255 else m.freq + 1) = m.freq + 1 := by
      rw [if_neg (by omega)]
    simp only [LfuNode.onRead, hm, hnew, hold, hb₁, hnext', hb₂, Option.bind_eq_bind, Option.bind_some]
    rw [if_pos (by omega)]
    exact hsettle
  · intro k' f' hk'
    rw [LfuNode.freq, hfreq] at hk'
    split at hk'
    · next he =>
      cases hk'
      exact ⟨m.freq, Nat.le_succ _, he ▸ hk⟩
    · exact ⟨f', le_refl _, hk'⟩

/-- A use moves a key to the end of the bucket of its next frequency, up to 255. -/
theorem LfuNode.onRead_holds (h : n.Holds keys) (hk : n.freq k = some f) :
    ∃ n', n.onRead k = some n' ∧ n'.Holds (moveTo keys k (min (f + 1) 255)) ∧
      (∀ k', n'.freq k' = if k' = k then some (min (f + 1) 255) else n.freq k') ∧
      (n.Ranked → n'.Ranked) := by
  rcases (h.freq_range hk).eq_or_lt with hf | hf
  · subst hf
    obtain ⟨n', hread, hholds, hfreq, hmin⟩ := LfuNode.onRead_top h hk
    rw [Nat.min_eq_right (Nat.le_succ 255)]
    refine ⟨n', hread, hholds, fun k' => ?_, fun hr => hr.raise hmin ?_⟩
    · rw [hfreq]
      split
      · next he => rw [he, hk]
      · rfl
    · intro k' f' hk'
      exact ⟨f', le_refl _, by rw [← hfreq]; exact hk'⟩
  · rw [Nat.min_eq_left hf]
    exact LfuNode.onRead_below h hk hf

/-- A new key comes to the end of the bucket of frequency 1. -/
theorem LfuNode.onWrite_new (h : n.Holds keys) (hk : n.freq k = none) :
    ∃ n', n.onWrite k = some n' ∧ n'.Holds (moveTo keys k 1) ∧
      (∀ k', n'.freq k' = if k' = k then some 1 else n.freq k') ∧ (n.Ranked → n'.Ranked) := by
  have hm : n.mapKey.lookup k = none := Option.map_eq_none_iff.mp hk
  obtain ⟨b, hb⟩ := h.bucket (f := 1) (by omega)
  obtain ⟨q, b', hb', hplaced⟩ := h.buckets.push (k := k) hb (by simp [LfuNode.ptr, hm])
  have hfreq := map_lookup_insert n.mapKey k ⟨1, q, n.sampleKeys.length⟩ LfuMetaPointers.freq
  simp only [LfuNode.onWrite, hm]
  refine ⟨{
      buckets := n.buckets.set 1 b'
      sampleKeys := n.sampleKeys ++ [k]
      mapKey := n.mapKey.insert k ⟨1, q, n.sampleKeys.length⟩
      minFreq := 1 }, by simp only [hb, hb', Option.bind_eq_bind, Option.bind_some],
    ⟨by simp [h.length], ?_, ?_, by simp, ?_⟩, hfreq, ?_⟩
  · refine hplaced.congr (fun g k' => ?_) (fun _ => rfl)
    simp only [LfuNode.ptr, lookup_insert_ite]
    by_cases he : k' = k
    · simp [he]
    · simp [he]
  · intro k' m' hm'
    simp only [lookup_insert_ite] at hm'
    split at hm'
    · cases hm'
      simp
    · exact h.freq_le k' m' hm'
  · have hpush := h.sampled.push (k := k) (by simp [LfuNode.idx, hm])
    convert hpush using 2 with k'
    exact map_lookup_insert n.mapKey k ⟨1, q, n.sampleKeys.length⟩ LfuMetaPointers.sampleIdx k'
  · intro hr k' f' hk'
    rw [LfuNode.freq, hfreq] at hk'
    split at hk'
    · cases hk'
      exact ⟨le_refl _, le_refl _⟩
    · exact ⟨(hr k' f' hk').1, (hr k' f' hk').1⟩

theorem LfuNode.onWrite_tracked (hk : n.freq k = some f) : n.onWrite k = n.onRead k := by
  obtain ⟨m, hm, -⟩ := Option.map_eq_some_iff.mp hk
  simp only [LfuNode.onWrite, hm]

theorem LfuNode.onDelete_untracked (h : n.Holds keys) (hk : n.freq k = none) :
    n.onDelete k = some n ∧ n.Holds (fun g => forget k (keys g)) := by
  have hm : n.mapKey.lookup k = none := Option.map_eq_none_iff.mp hk
  refine ⟨by simp only [LfuNode.onDelete, hm], h.length, ?_, h.freq_le, h.minFreq_le, h.sampled⟩
  intro g b hb
  have htracks := h.buckets g b hb
  have hnot : k ∉ keys g := by
    rw [htracks.mem_iff]
    simp [LfuNode.ptr, hm]
  beta_reduce
  rw [forget_of_notMem hnot]
  exact htracks

theorem LfuNode.onDelete_tracked (h : n.Holds keys) (hk : n.freq k = some f) :
    ∃ n', n.onDelete k = some n' ∧ n'.Holds (fun g => forget k (keys g)) ∧
      (∀ k', n'.freq k' = if k' = k then none else n.freq k') ∧ (n.Ranked → n'.Ranked) := by
  obtain ⟨m, hm, rfl⟩ := Option.map_eq_some_iff.mp hk
  have hmf := h.freq_le k m hm
  obtain ⟨b, hb⟩ := h.bucket hmf
  obtain ⟨b', hb', hremoved⟩ := h.buckets.remove hb (LfuNode.ptr_eq hm)
  obtain ⟨ys, hys, hmoved, hsampled⟩ :=
    h.sampled.swapRemove (k := k) (i := m.sampleIdx) (by simp [LfuNode.idx, hm])
  have hlookup := lookup_repaired n.mapKey k ys m.sampleIdx (fun p => { p with sampleIdx := m.sampleIdx })
  have hfreq : ∀ k', ((repaired n.mapKey k ys m.sampleIdx
      (fun p => { p with sampleIdx := m.sampleIdx })).lookup k').map LfuMetaPointers.freq =
        if k' = k then none else n.freq k' := by
    apply map_lookup_repaired
    intro p
    rfl
  have hholds : LfuNode.Holds { n with
      buckets := n.buckets.set m.freq b'
      sampleKeys := ys
      mapKey := repaired n.mapKey k ys m.sampleIdx
        (fun p => { p with sampleIdx := m.sampleIdx }) } (fun g => forget k (keys g)) := by
    refine ⟨by simp [h.length], ?_, ?_, h.minFreq_le, ?_⟩
    · refine hremoved.congr (fun g k' => ?_) (fun _ => rfl)
      simp only [LfuNode.ptr, hlookup]
      split
      · rfl
      · split
        · cases n.mapKey.lookup k' <;> rfl
        · rfl
    · intro k' m' hm'
      have hf' : n.freq k' = some m'.freq := by
        have hmap := hfreq k'
        rw [hm', Option.map_some] at hmap
        split at hmap
        · cases hmap
        · exact hmap.symm
      exact h.freq_range hf'
    · convert hsampled using 2 with k'
      simp only [LfuNode.idx]
      apply map_lookup_repaired_index _ _ _ _ _ hmoved
      intro p
      rfl
  obtain ⟨mf, hmf', hsettle, hranked⟩ := hholds.settle hmf
  refine ⟨_, ?_, hholds.withMinFreq hmf', hfreq, fun hr => hranked (hr.raise rfl ?_)⟩
  · simp only [LfuNode.onDelete, hm, hb, hb', hys, Option.bind_eq_bind, Option.bind_some]
    exact hsettle
  · intro k' f' hk'
    rw [LfuNode.freq, hfreq] at hk'
    split at hk'
    · cases hk'
    · exact ⟨f', le_refl _, hk'⟩

theorem LfuNode.onDelete_holds (h : n.Holds keys) (k : K) :
    ∃ n', n.onDelete k = some n' ∧ n'.Holds (fun g => forget k (keys g)) ∧
      (∀ k', n'.freq k' = if k' = k then none else n.freq k') ∧ (n.Ranked → n'.Ranked) := by
  cases hk : n.freq k with
  | none =>
      obtain ⟨hdelete, hholds⟩ := LfuNode.onDelete_untracked h hk
      refine ⟨n, hdelete, hholds, fun k' => ?_, id⟩
      split
      · next he => rw [he, hk]
      · rfl
  | some f => exact LfuNode.onDelete_tracked h hk

/-- The victim is the first key of the bucket of min_freq, once that is brought up
to date. -/
theorem LfuNode.popVictim_holds (h : n.Holds keys) :
    ∃ m, m ≤ 255 ∧ n.popVictim = some ((keys m).head?, { n with minFreq := m }) ∧
      (n.Ranked → LfuNode.Ranked { n with minFreq := m } ∧
        (keys m = [] → ∀ k, n.freq k = none)) := by
  obtain ⟨b, hb⟩ := h.bucket h.minFreq_le
  have htracks := h.buckets _ b hb
  have hcheck : ∃ m, m ≤ 255 ∧ n.checkMinFreq = some { n with minFreq := m } ∧
      (n.Ranked → LfuNode.Ranked { n with minFreq := m } ∧
        (keys m = [] → ∀ k, n.freq k = none)) := by
    simp only [LfuNode.checkMinFreq, hb, Option.bind_eq_bind, Option.bind_some]
    by_cases hempty : b.isEmpty = true
    · rw [if_pos hempty]
      exact h.updateMinFreq
    · rw [if_neg hempty]
      refine ⟨n.minFreq, h.minFreq_le, rfl, fun hr => ⟨hr, fun hkeys => ?_⟩⟩
      exact absurd (htracks.isEmpty_iff.mpr hkeys) hempty
  obtain ⟨m, hm, hn, hranked⟩ := hcheck
  obtain ⟨c, hc⟩ := h.bucket hm
  refine ⟨m, hm, ?_, hranked⟩
  simp only [LfuNode.popVictim, hn, hc, (h.buckets m c hc).peekFront, Option.bind_eq_bind,
    Option.bind_some]

namespace EvictionStrategy

def WF : EvictionStrategy K → Prop
  | .lru n => n.WF
  | .lfu n => n.WF

variable {e : EvictionStrategy K}

theorem new_wf (t : EvictionType) : (new t : EvictionStrategy K).WF := by
  cases t with
  | lru => exact LruNode.new_holds.wf
  | lfu => exact LfuNode.new_holds.wf

theorem sampled (h : e.WF) : Sampled e.sampleKeys (fun k => e.sampleIdx k) := by
  cases e with
  | lru n => exact LruNode.WF.sampled h
  | lfu n => exact LfuNode.WF.sampled h

theorem mem_tracked_iff (k : K) : k ∈ e.tracked ↔ ∃ i, e.sampleIdx k = some i := by
  cases e <;> simp [tracked, sampleIdx, Finmap.mem_keys, Finmap.mem_iff]

theorem mem_tracked_lru {n : LruNode K} {order : List K} (h : n.Holds order) :
    k ∈ (lru n).tracked ↔ k ∈ order := by
  rw [h.mem_iff, tracked, Finmap.mem_keys]

theorem mem_tracked_lfu {n : LfuNode K} : k ∈ (lfu n).tracked ↔ ∃ f, n.freq k = some f := by
  rw [tracked, Finmap.mem_keys, Finmap.mem_iff]
  simp [LfuNode.freq]

theorem onWrite_spec (h : e.WF) (k : K) :
    ∃ e', e.onWrite k = some e' ∧ e'.WF ∧ ∀ k', k' ∈ e'.tracked ↔ k' = k ∨ k' ∈ e.tracked := by
  cases e with
  | lru n =>
      obtain ⟨order, hn⟩ := LruNode.WF.holds h
      obtain ⟨n', hn', hholds⟩ := LruNode.onWrite_holds hn k
      refine ⟨.lru n', by simp [onWrite, hn'], hholds.wf, fun k' => ?_⟩
      rw [mem_tracked_lru hholds, mem_tracked_lru hn, mem_touch]
  | lfu n =>
      obtain ⟨keys, hn⟩ := LfuNode.WF.holds h
      obtain ⟨n', f, hn', hholds, hfreq⟩ : ∃ n' f, n.onWrite k = some n' ∧ n'.Holds (moveTo keys k f) ∧
          ∀ k', n'.freq k' = if k' = k then some f else n.freq k' := by
        cases hk : n.freq k with
        | none =>
            obtain ⟨n', hn', hholds, hfreq, -⟩ := LfuNode.onWrite_new hn hk
            exact ⟨n', 1, hn', hholds, hfreq⟩
        | some f =>
            obtain ⟨n', hn', hholds, hfreq, -⟩ := LfuNode.onRead_holds hn hk
            exact ⟨n', _, (LfuNode.onWrite_tracked hk).trans hn', hholds, hfreq⟩
      refine ⟨.lfu n', by simp [onWrite, hn'], hholds.wf, fun k' => ?_⟩
      rw [mem_tracked_lfu, mem_tracked_lfu, hfreq]
      by_cases he : k' = k
      · simp [he]
      · simp [he]

theorem onRead_spec (h : e.WF) (k : K) :
    ∃ e', e.onRead k = some e' ∧ e'.WF ∧ ∀ k', k' ∈ e'.tracked ↔ k' ∈ e.tracked := by
  cases e with
  | lru n =>
      obtain ⟨order, hn⟩ := LruNode.WF.holds h
      obtain ⟨n', hn', hholds⟩ := LruNode.onRead_holds hn k
      refine ⟨.lru n', by simp [onRead, hn'], hholds.wf, fun k' => ?_⟩
      rw [mem_tracked_lru hholds, mem_tracked_lru hn]
      split
      · next hk =>
        rw [mem_touch]
        constructor
        · rintro (rfl | hk')
          · exact hk
          · exact hk'
        · exact .inr
      · rfl
  | lfu n =>
      obtain ⟨keys, hn⟩ := LfuNode.WF.holds h
      cases hk : n.freq k with
      | none => exact ⟨.lfu n, by simp [onRead, LfuNode.onRead_untracked hk], h, fun _ => Iff.rfl⟩
      | some f =>
          obtain ⟨n', hn', hholds, hfreq, -⟩ := LfuNode.onRead_holds hn hk
          refine ⟨.lfu n', by simp [onRead, hn'], hholds.wf, fun k' => ?_⟩
          rw [mem_tracked_lfu, mem_tracked_lfu, hfreq]
          by_cases he : k' = k
          · simp [he, hk]
          · simp [he]

theorem onDelete_spec (h : e.WF) (k : K) :
    ∃ e', e.onDelete k = some e' ∧ e'.WF ∧ ∀ k', k' ∈ e'.tracked ↔ k' ≠ k ∧ k' ∈ e.tracked := by
  cases e with
  | lru n =>
      obtain ⟨order, hn⟩ := LruNode.WF.holds h
      obtain ⟨n', hn', hholds⟩ := LruNode.onDelete_holds hn k
      refine ⟨.lru n', by simp [onDelete, hn'], hholds.wf, fun k' => ?_⟩
      rw [mem_tracked_lru hholds, mem_tracked_lru hn, mem_forget]
  | lfu n =>
      obtain ⟨keys, hn⟩ := LfuNode.WF.holds h
      obtain ⟨n', hn', hholds, hfreq, -⟩ := LfuNode.onDelete_holds hn k
      refine ⟨.lfu n', by simp [onDelete, hn'], hholds.wf, fun k' => ?_⟩
      rw [mem_tracked_lfu, mem_tracked_lfu, hfreq]
      by_cases he : k' = k
      · simp [he]
      · simp [he]

theorem popVictim_spec (h : e.WF) :
    ∃ v e', e.popVictim = some (v, e') ∧ e'.WF ∧ e'.tracked = e.tracked ∧
      ∀ k, v = some k → k ∈ e.tracked := by
  cases e with
  | lru n =>
      obtain ⟨order, hn⟩ := LruNode.WF.holds h
      refine ⟨order.head?, .lru n, by simp [popVictim, LruNode.popVictim_holds hn], h, rfl, ?_⟩
      intro k hk
      exact (mem_tracked_lru hn).mpr (List.mem_of_mem_head? hk)
  | lfu n =>
      obtain ⟨keys, hn⟩ := LfuNode.WF.holds h
      obtain ⟨m, hm, hv, -⟩ := LfuNode.popVictim_holds hn
      refine ⟨_, .lfu { n with minFreq := m }, by rw [popVictim, hv]; rfl,
        (hn.withMinFreq hm).wf, rfl, ?_⟩
      intro k hk
      exact mem_tracked_lfu.mpr ⟨m, (hn.mem_iff hm).mp (List.mem_of_mem_head? hk)⟩

end EvictionStrategy

end RustKv.Eviction
