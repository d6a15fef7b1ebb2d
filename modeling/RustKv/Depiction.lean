import RustKv.LogicalCommands
import RustKv.Keyspace

namespace RustKv.Abstract

open Text Decimal Protocol Domain CacheStore Zset RustKv.Types Executor ListHash

variable {S J : Type}

section Listing

variable [LinearOrder S] {x : SkipIndex S} {m : Scores S} {E : List (S × Bytes)}

theorem mem_listing (m : Scores S) (score : S) (member : Bytes) :
    (score, member) ∈ listing m ↔ m.lookup member = some score := by
  rw [Finmap.lookup_eq_some_iff]
  simp only [listing, List.mem_map, Multiset.mem_sort, Multiset.mem_map, Sigma.exists]
  constructor
  · rintro ⟨e, ⟨mem, sc, he, rfl⟩, heq⟩
    cases heq
    exact he
  · intro he
    exact ⟨_, ⟨member, score, he, rfl⟩, rfl⟩

theorem listing_nodup (m : Scores S) : (listing m).Nodup := by
  refine List.Nodup.map (fun a b h => h) ?_
  rw [← Multiset.coe_nodup, Multiset.sort_eq]
  refine Multiset.Nodup.map ?_ m.nodup_entries
  rintro ⟨a, b⟩ ⟨a', b'⟩ h
  cases h
  rfl

theorem listing_sorted (m : Scores S) : (listing m).Pairwise (fun a b => toLex a ≤ toLex b) := by
  have h := Multiset.pairwise_sort (m.entries.map (fun e => toLex (e.2, e.1))) (· ≤ ·)
  exact List.pairwise_map.mpr (h.imp (fun hle => hle))

/-- The skip list holds the listing of the map that it is in step with. -/
theorem listing_eq (h : x.Indexes m E) : E = listing m := by
  have hnodup : E.Nodup := h.nodup.of_map
  have hperm : E.Perm (listing m) := by
    refine (List.perm_ext_iff_of_nodup hnodup (listing_nodup m)).mpr (fun e => ?_)
    exact (h.mem_iff e.1 e.2).trans (mem_listing m e.1 e.2).symm
  refine hperm.eq_of_pairwise (fun a b _ _ hab hba => ?_) (h.sorted.imp le_of_lt) (listing_sorted m)
  exact toLex.injective (le_antisymm hab hba)

end Listing

section Entries

variable [LinearOrder S] {P : S → Prop} {n n' : Nat}

/-- What an entry is for its clients. A sorted set has at most `n` members, and its scores
are in `P`. -/
inductive Depicts (P : S → Prop) (n : Nat) : ValueEntry (Value S J) → Item S J → Prop
  | text (element : Element) (expiresAt : Option Nat) (dataSize : UInt64) :
      Depicts P n ⟨.simple element, expiresAt, dataSize⟩ ⟨.text element.reply, expiresAt⟩
  | list (items : List Bytes) (capacity heap : UInt64) (expiresAt : Option Nat) (dataSize : UInt64) :
      Depicts P n ⟨.list (items.map .string) capacity heap, expiresAt, dataSize⟩ ⟨.list items, expiresAt⟩
  | hash (map : HashMap) (fields : Finmap (fun _ : Str => Bytes)) (capacity heap : UInt64)
      (expiresAt : Option Nat) (dataSize : UInt64) (shows : Shows map fields) :
      Depicts P n ⟨.hash map capacity heap, expiresAt, dataSize⟩ ⟨.hash fields, expiresAt⟩
  | sorted (z : ZSet S) (size : UInt64) (expiresAt : Option Nat) (dataSize : UInt64) (indexed : z.Indexed P)
      (small : z.dict.keys.card ≤ n) :
      Depicts P n ⟨.zset z size, expiresAt, dataSize⟩ ⟨.sorted z.dict, expiresAt⟩
  | json (root : J) (size : UInt64) (expiresAt : Option Nat) (dataSize : UInt64) :
      Depicts P n ⟨.json root size, expiresAt, dataSize⟩ ⟨.json root, expiresAt⟩

variable {e : ValueEntry (Value S J)} {x y : Item S J} {entry : Option (ValueEntry (Value S J))}
  {item item' : Option (Item S J)}

theorem Depicts.mono (h : Depicts P n e x) (hn : n ≤ n') : Depicts P n' e x := by
  cases h with
  | text => exact .text _ _ _
  | list => exact .list _ _ _ _ _
  | hash _ _ _ _ _ _ shows => exact .hash _ _ _ _ _ _ shows
  | sorted _ _ _ _ indexed small => exact .sorted _ _ _ _ indexed (small.trans hn)
  | json => exact .json _ _ _ _

theorem Depicts.deadline (h : Depicts P n e x) : x.deadline = e.expiresAt := by
  cases h <;> rfl

theorem Depicts.isOver (h : Depicts P n e x) (time : Nat) : x.isOver time = e.isExpired time := by
  cases h <;> rfl

theorem shows_unique {map : HashMap} {m m' : Finmap (fun _ : Str => Bytes)} (h : Shows map m)
    (h' : Shows map m') : m = m' := by
  refine Finmap.ext_lookup (fun field => ?_)
  have hmap := (h field).symm.trans (h' field)
  exact Option.map_injective (fun a b he => Element.string.inj he) hmap

/-- An entry is one item only. -/
theorem Depicts.unique (h : Depicts P n e x) (h' : Depicts P n' e y) : x = y := by
  cases h with
  | text => cases h'; rfl
  | list items =>
      generalize hl : items.map Element.string = deque at h'
      cases h' with
      | list items' =>
          rw [List.map_injective_iff.mpr (fun a b he => Element.string.inj he) hl]
  | hash map fields _ _ _ _ shows =>
      cases h' with
      | hash _ fields' _ _ _ _ shows' => rw [shows_unique shows shows']
  | sorted => cases h'; rfl
  | json => cases h'; rfl

theorem depicts_unique (h : Option.Rel (Depicts P n) entry item) (h' : Option.Rel (Depicts P n') entry item') :
    item = item' := by
  cases h with
  | none => cases h'; rfl
  | some h =>
      cases h' with
      | some h' => rw [h.unique h']

theorem depicts_mono (h : Option.Rel (Depicts P n) entry item) (hn : n ≤ n') :
    Option.Rel (Depicts P n') entry item := by
  cases h with
  | none => exact .none
  | some h => exact .some (h.mono hn)

theorem depicts_live (h : Option.Rel (Depicts P n) entry item) (time : Nat) :
    Option.Rel (Depicts P n) (unlessExpired time entry) (live time item) := by
  cases h with
  | none => exact .none
  | @some e x h =>
      simp only [unlessExpired, live, Option.filter, h.isOver time]
      split
      · exact .some h
      · exact .none

theorem live_none (h : Option.Rel (Depicts P n) entry item) {time : Nat} (he : unlessExpired time entry = none) :
    live time item = none := by
  have hlive := depicts_live h time
  rw [he] at hlive
  generalize live time item = x at hlive ⊢
  cases hlive
  rfl

end Entries

section Commands

variable [Host] [LinearOrder S] {P : S → Prop} {n n' time : Nat}

/-- An access does to an entry what `f` does to the item that it is. -/
def Agrees (P : S → Prop) (n n' time : Nat) (a : Access S (Value S J))
    (f : Option (Item S J) → Answer S J) : Prop :=
  ∀ e x, Option.Rel (Depicts P n) e x →
    (a.onCell time e).1 = (f x).1 ∧ Option.Rel (Depicts P n') (a.onCell time e).2 (f x).2

/-- The setting of a command whose clock shows `now`. -/
def settingAt (refuses : Str → Option KvError) (time now : Nat) : Setting :=
  ⟨Host.lexicalParse, refuses, time, now⟩

variable {refuses : Str → Option KvError} {now : Nat}

theorem depicts_simple (value : Bytes) (expiresAt : Option Nat) :
    Depicts (J := J) P n (newEntry (simpleValue value) expiresAt)
      ⟨(settingAt refuses time now).text value, expiresAt⟩ := by
  unfold simpleValue
  simp only [Setting.text, settingAt]
  cases Host.lexicalParse value with
  | none => exact .text (.string value) expiresAt _
  | some i => exact .text (.int i) expiresAt _

omit [Host] in
/-- A read looks at what is live and leaves the key as it is. -/
theorem agrees_read {f : Option (ValueEntry (Value S J)) → Except KvError Frame}
    {g : Option (Item S J) → Except KvError Frame}
    (h : ∀ e x, Option.Rel (Depicts P n) e x → f e = g x) :
    Agrees P n n time (.read f) (fun x => (⟨g (live time x), none, false⟩, x)) := by
  intro e x hx
  refine ⟨?_, hx⟩
  simp only [Access.onCell, h _ _ (depicts_live hx time)]

theorem agrees_get : Agrees (J := J) P n n time getAccess (get (settingAt refuses time now)) := by
  refine agrees_read (g := fun x => .ok (textReply x)) (fun e x h => ?_)
  cases h with
  | none => rfl
  | some h => cases h <;> rfl

theorem agrees_set (c : SetCommand) :
    Agrees (J := J) P n n time (setAccess now c) (set (settingAt refuses time now) c) := by
  intro e x h
  have hitem : Depicts (J := J) P n (setEntry now c) (setItem (settingAt refuses time now) c) :=
    depicts_simple c.value _
  have hlive := depicts_live h time
  unfold setAccess set
  cases hc : c.condition with
  | none =>
      refine ⟨?_, ?_⟩
      · cases live (settingAt refuses time now).time x <;> rfl
      · cases live (settingAt refuses time now).time x <;> exact .some hitem
  | some condition =>
      simp only [Access.onCell, settingAt] at hlive ⊢
      revert hlive
      generalize unlessExpired time e = e'
      generalize live time x = x'
      intro hlive
      cases hlive with
      | none =>
          cases condition with
          | nx => exact ⟨rfl, .some hitem⟩
          | xx => exact ⟨rfl, .none⟩
      | some h =>
          cases condition with
          | nx => exact ⟨rfl, .some h⟩
          | xx => exact ⟨rfl, .some hitem⟩

theorem agrees_mset (value : Bytes) :
    Agrees (J := J) P n n time (.insert (msetEntry value) (.ok .null) : Access S _)
      (fun _ => (.ok .null, some (msetItem (settingAt refuses time now) value))) := by
  intro e x h
  exact ⟨rfl, .some (depicts_simple value none)⟩

section Lists

omit [Host] [LinearOrder S] in
theorem pushAll_items (values items : List Bytes) (heap : UInt64) :
    (pushAll (items.map .string) heap values).1 = (values.reverse ++ items).map .string := by
  rw [pushAll_list values (items.map .string) heap (UInt64.ofNat (Coll.list items).bytes), pushAll_spec]

omit [LinearOrder S] in
/-- The reply counts the values and the items they are put before. -/
theorem lpushOnto_eq (rt : Runtime) (c : LPushCommand) (values items : List Bytes) (heap : UInt64)
    (expiresAt : Option Nat) :
    (lpushOnto rt c values (items.map .string) heap expiresAt : Done S × PutBack (Value S J)).1 =
        .logged (.integer (values.length + items.length)) (.lpush c) ∧
      ∃ heap', (lpushOnto rt c values (items.map .string) heap expiresAt : Done S × PutBack (Value S J)).2 =
        .insert (newEntry (.list ((values.reverse ++ items).map .string) rt.capacity heap') expiresAt) := by
  have hpush := pushAll_items values items heap
  unfold lpushOnto
  cases hp : pushAll (items.map .string) heap values with
  | mk list heap' =>
      rw [hp] at hpush
      simp only at hpush
      subst hpush
      refine ⟨?_, heap', rfl⟩
      simp

theorem agrees_lpush (rt : Runtime) (c : LPushCommand) (values : List Bytes) :
    Agrees (J := J) P n n time (lpushAccess rt c values) (lpush (settingAt refuses time now) c values) := by
  intro e x h
  unfold lpushAccess lpush
  by_cases hv : values = []
  · rw [if_pos hv, if_pos hv]
    have hlive := depicts_live h time
    simp only [Access.onCell, settingAt]
    revert hlive
    generalize unlessExpired time e = e'
    generalize live time x = x'
    intro hlive
    refine ⟨?_, hlive⟩
    cases hlive with
    | none => rfl
    | some h =>
        cases h with
        | list items => simp [currentLength, lengthReply]
        | text | hash | sorted | json => rfl
  · rw [if_neg hv, if_neg hv]
    cases h with
    | none =>
        obtain ⟨hdone, heap, hput⟩ := lpushOnto_eq (S := S) (J := J) rt c values [] 0 none
        simp only [List.append_nil] at hput
        simp only [Access.onCell, lpushTaken]
        change (lpushOnto rt c values ([].map .string) 0 none).1 = _ ∧
          Option.Rel _ ((lpushOnto rt c values ([].map .string) 0 none).2.result none) _
        rw [hdone, hput]
        exact ⟨rfl, .some (.list values.reverse _ _ _ _)⟩
    | some h =>
        have same := h
        cases h with
        | list items capacity heap expiresAt =>
            obtain ⟨hdone, heap', hput⟩ := lpushOnto_eq (S := S) (J := J) rt c values items heap expiresAt
            simp only [Access.onCell, lpushTaken]
            rw [hdone, hput]
            exact ⟨rfl, .some (.list (values.reverse ++ items) _ _ _ _)⟩
        | text | hash | sorted | json => exact ⟨rfl, .some same⟩

theorem depicts_popRest (items : List Bytes) (capacity heap : UInt64) (expiresAt : Option Nat) :
    Option.Rel (Depicts (J := J) P n) ((popRest (items.map .string) capacity heap expiresAt).result none)
      (remaining items expiresAt) := by
  unfold popRest remaining
  simp only [List.map_eq_nil_iff]
  split
  · exact .none
  · exact .some (.list _ _ _ _ _)

theorem agrees_lpop (c : LPopCommand) : Agrees (J := J) P n n time (.take (lpopTaken c) : Access S _) (lpop c) := by
  intro e x h
  cases h with
  | none => exact ⟨rfl, .none⟩
  | some h =>
      have same := h
      cases h with
      | list items =>
          cases items with
          | nil => exact ⟨rfl, .none⟩
          | cons item items => exact ⟨rfl, depicts_popRest items _ _ _⟩
      | text | hash | sorted | json => exact ⟨rfl, .some same⟩

theorem agrees_blpop (c : BLPopCommand) :
    Agrees (J := J) P n n time (.take (blpopTaken c) : Access S _) (blpop c) := by
  intro e x h
  cases h with
  | none => exact ⟨rfl, .none⟩
  | some h =>
      have same := h
      cases h with
      | list items =>
          cases items with
          | nil => exact ⟨rfl, .some (.list [] _ _ _ _)⟩
          | cons item items => exact ⟨rfl, depicts_popRest items _ _ _⟩
      | text | hash | sorted | json => exact ⟨rfl, .some same⟩

end Lists

section Hashes

omit [Host] [LinearOrder S] in
/-- What a stored hash shows does not depend on its elements_heap. -/
theorem hsetAll_shows {map : HashMap} {fields : Finmap (fun _ : Str => Bytes)} (h : Shows map fields)
    (heap : UInt64) (pairs : List (Str × Bytes)) :
    Shows (hsetAll map heap 0 pairs).1 (setFields fields pairs) ∧
      (hsetAll map heap 0 pairs).2.2 = newFields fields (pairs.map Prod.fst) := by
  obtain ⟨map', heq, hshows⟩ := hsetAll_spec pairs h 0
  obtain ⟨hmap, hcount⟩ := hsetAll_map pairs map heap (UInt64.ofNat (Coll.hash fields).bytes) 0
  rw [heq] at hmap hcount
  rw [hmap, hcount]
  exact ⟨hshows, Nat.zero_add _⟩

omit [Host] [LinearOrder S] in
theorem hdelAll_shows {map : HashMap} {fields : Finmap (fun _ : Str => Bytes)} (h : Shows map fields)
    (heap : UInt64) (gone : List Str) :
    Shows (hdelAll map heap 0 gone).1 (eraseFields fields gone) ∧
      (hdelAll map heap 0 gone).2.2 = oldFields fields gone := by
  obtain ⟨map', heq, hshows⟩ := hdelAll_spec gone h 0
  obtain ⟨hmap, hcount⟩ := hdelAll_map gone map heap (UInt64.ofNat (Coll.hash fields).bytes) 0
  rw [heq] at hmap hcount
  rw [hmap, hcount]
  exact ⟨hshows, Nat.zero_add _⟩

omit [Host] [LinearOrder S] in
theorem shows_empty : Shows ∅ ∅ := by
  intro field
  rw [Finmap.lookup_empty, Finmap.lookup_empty]
  rfl

theorem agrees_hset (rt : Runtime) (c : HSetCommand) :
    Agrees (J := J) P n n time (.take (hsetTaken rt c) : Access S _) (hset c) := by
  intro e x h
  cases h with
  | none =>
      obtain ⟨hshows, hcount⟩ := hsetAll_shows shows_empty 0 c.fieldValues
      refine ⟨?_, .some (.hash _ _ _ _ _ _ hshows)⟩
      simp only [Access.onCell, hsetTaken, hsetOnto, hcount, hset]
  | some h =>
      have same := h
      cases h with
      | hash map fields capacity heap expiresAt dataSize shows =>
          obtain ⟨hshows, hcount⟩ := hsetAll_shows shows heap c.fieldValues
          refine ⟨?_, .some (.hash _ _ _ _ _ _ hshows)⟩
          simp only [Access.onCell, hsetTaken, hsetOnto, hcount, hset]
      | text | list | sorted | json => exact ⟨rfl, .some same⟩

theorem agrees_hget (c : HGetCommand) :
    Agrees (J := J) P n n time (hgetAccess c : Access S _) (hget (settingAt refuses time now) c) := by
  refine agrees_read (g := fun x => .ok (fieldReply c.field x)) (fun e x h => ?_)
  cases h with
  | none => rfl
  | some h =>
      cases h with
      | hash map fields _ _ _ _ shows =>
          simp only [shows c.field, fieldReply]
          cases fields.lookup c.field <;> rfl
      | text | list | sorted | json => rfl

theorem agrees_hdel (c : HDelCommand) : Agrees (J := J) P n n time (.take (hdelTaken c) : Access S _) (hdel c) := by
  intro e x h
  cases h with
  | none => exact ⟨rfl, .none⟩
  | some h =>
      have same := h
      cases h with
      | hash map fields capacity heap expiresAt dataSize shows =>
          obtain ⟨hshows, hcount⟩ := hdelAll_shows shows heap c.fields
          simp only [Access.onCell, hdelTaken, hcount, hdel, hshows.keys]
          refine ⟨trivial, ?_⟩
          split
          · exact .none
          · exact .some (.hash _ _ _ _ _ _ hshows)
      | text | list | sorted | json => exact ⟨rfl, .some same⟩

end Hashes

section SortedSets

variable [F64 S]

omit [Host] [LinearOrder S] [F64 S] in
theorem card_insert_le (m : Scores S) (member : Bytes) (score : S) :
    (m.insert member score).keys.card ≤ m.keys.card + 1 := by
  refine (Finset.card_le_card (fun k hk => ?_)).trans (Finset.card_insert_le member m.keys)
  rw [Finmap.mem_keys, Finmap.mem_insert] at hk
  rw [Finset.mem_insert, Finmap.mem_keys]
  exact hk

omit [Host] [LinearOrder S] [F64 S] in
theorem card_erase_le (m : Scores S) (member : Bytes) : (m.erase member).keys.card ≤ m.keys.card := by
  refine Finset.card_le_card (fun k hk => ?_)
  rw [Finmap.mem_keys, Finmap.mem_erase] at hk
  exact Finmap.mem_keys.mpr hk.2

omit [F64 S] in
theorem depicts_zset {z : ZSet S} {m : Scores S} (indexed : z.Indexed P) (hdict : z.dict = m)
    (small : m.keys.card ≤ n) (expiresAt : Option Nat) :
    Depicts (J := J) P n (zsetEntry z expiresAt) ⟨.sorted m, expiresAt⟩ := by
  subst hdict
  exact .sorted z _ expiresAt _ indexed small

theorem agrees_zadd (cmp : Compares P) (rt : Runtime) {c : ZAddCommand S} (hc : P c.score) :
    Agrees (J := J) P n (n + 1) time (.take (zaddTaken rt c)) (zadd c) := by
  intro e x h
  cases h with
  | none =>
      obtain ⟨-, hdict, hindexed⟩ := step_indexed cmp (new_indexed (S := S)) (.insert c.score c.member) rt
        (fun score member h => by cases h; exact hc)
      have hcard := card_insert_le (∅ : Scores S) c.member c.score
      refine ⟨rfl, ?_⟩
      exact .some (depicts_zset hindexed hdict (hcard.trans (by simp)) none)
  | some h =>
      have same := h.mono (Nat.le_succ n)
      cases h with
      | sorted z size expiresAt dataSize indexed small =>
          obtain ⟨hnew, hdict, hindexed⟩ := step_indexed cmp indexed (.insert c.score c.member) rt
            (fun score member h => by cases h; exact hc)
          have hcard := card_insert_le z.dict c.member c.score
          simp only [ZSet.step, Scores.step] at hnew hdict hindexed
          simp only [Access.onCell, zaddTaken, hnew, zadd]
          refine ⟨?_, ?_⟩
          · by_cases hm : c.member ∈ z.dict <;> simp [hm]
          · exact .some (depicts_zset hindexed hdict (by omega) expiresAt)
      | text | list | hash | json => exact ⟨rfl, .some same⟩

theorem agrees_zrem (cmp : Compares P) (c : ZRemCommand) (hn : n < 2 ^ 63) :
    Agrees (J := J) P n n time (.take (zremTaken c) : Access S _) (zrem c) := by
  intro e x h
  cases h with
  | none => exact ⟨rfl, .none⟩
  | some h =>
      have same := h
      cases h with
      | sorted z size expiresAt dataSize indexed small =>
          obtain ⟨hgone, hdict, hindexed⟩ := step_indexed cmp indexed (.delete c.member) ⟨[], 0, 0⟩
            (fun score member h => by cases h)
          have hcard := card_erase_le z.dict c.member
          simp only [ZSet.step, Scores.step] at hgone hdict hindexed
          simp only [Access.onCell, zremTaken, zrem]
          cases hd : z.delete c.member with
          | mk gone z' =>
              rw [hd] at hgone hdict hindexed
              simp only at hgone hdict hindexed
              subst hgone
              by_cases hm : c.member ∈ z.dict
              · -- the length is a machine word, so a set of 2^64 members would count as empty
                have hlen : z'.len = 0 ↔ z'.dict.keys = ∅ := by
                  rw [← Finset.card_eq_zero, ← UInt64.toNat_inj, ZSet.len, toNat_ofNat_lt (by rw [hdict]; omega)]
                  rfl
                simp only [hm, decide_true, if_true, hlen, hdict]
                refine ⟨trivial, ?_⟩
                split
                · exact .none
                · exact .some (depicts_zset hindexed hdict (by omega) expiresAt)
              · have hz : z' = z := by
                  have hf : (z.delete c.member).2 = z := delete_false (by rw [hd]; simp [hm])
                  rwa [hd] at hf
                subst hz
                simp only [hm, decide_false, if_false]
                exact ⟨trivial, .some (.sorted _ _ _ _ indexed small)⟩
      | text | list | hash | json => exact ⟨rfl, .some same⟩

omit [F64 S] in
/-- A read of a sorted set answers as the map does where it does on sets of at most `n` members. -/
theorem agrees_zread {found : ZSet S → Frame} {found' : Scores S → Frame} {absent : Frame}
    (h : ∀ z : ZSet S, z.Indexed P → z.dict.keys.card ≤ n → found z = found' z.dict) :
    Agrees (J := J) P n n time (zsetRead found absent)
      (zread (settingAt refuses time now) found' absent) := by
  refine agrees_read (g := scoresReply found' absent) (fun e x hx => ?_)
  cases hx with
  | none => rfl
  | some hx =>
      cases hx with
      | sorted z _ _ _ indexed small => exact congrArg _ (h z indexed small)
      | text | list | hash | json => rfl

theorem agrees_zscore (c : ZScoreCommand) :
    Agrees (J := J) P n n time (zscoreAccess c) (zscore (settingAt refuses time now) c) :=
  agrees_zread (fun _ _ _ => rfl)

theorem agrees_zrank (cmp : Compares P) (c : ZRankCommand) (hn : n < 2 ^ 63) :
    Agrees (J := J) P n n time (zrankAccess c) (zrank (settingAt refuses time now) c) := by
  refine agrees_zread (fun z indexed small => ?_)
  obtain ⟨hwithin, E, hE⟩ := indexed
  simp only [ZSet.rank]
  cases hl : z.dict.lookup c.member with
  | none => rfl
  | some score =>
      have hcard : (Scores.smaller z.dict (score, c.member)).card < 2 ^ 63 :=
        ((Finset.card_filter_le _ _).trans small).trans_lt hn
      have hnat : (UInt64.ofNat (Scores.smaller z.dict (score, c.member)).card).toNat =
          (Scores.smaller z.dict (score, c.member)).card := toNat_ofNat_lt (by omega)
      simp only [hE.rank cmp hwithin hl, Option.getD_some]
      rw [asIsize_eq (by omega), hnat]

omit [F64 S] in
theorem agrees_zrange {c : ZRangeCommand} (hstart : IsIsize c.start) (hstop : IsIsize c.stop)
    (hn : n < 2 ^ 63) :
    Agrees (J := J) P n n time (zrangeAccess c : Access S _) (zrange (settingAt refuses time now) c) := by
  refine agrees_zread (fun z indexed small => ?_)
  obtain ⟨hwithin, E, hE⟩ := indexed
  have hlen := hE.length
  rw [hE.range (by omega) hstart hstop, listing_eq hE, slice, List.map_map]
  rfl

end SortedSets

section Documents

variable [SerdeJson J]

theorem agrees_jsonSet (c : JsonSetCommand) (v : J) :
    Agrees P n n time (.take (jsonSetTaken c v) : Access S _) (jsonSet c v) := by
  intro e x h
  cases h with
  | none =>
      simp only [Access.onCell, jsonSetTaken, jsonSet]
      split
      · exact ⟨rfl, .some (.json _ _ _ _)⟩
      · exact ⟨rfl, .none⟩
  | some h =>
      have same := h
      cases h with
      | json root =>
          simp only [Access.onCell, jsonSetTaken, jsonSet]
          split
          · exact ⟨rfl, .some (.json _ _ _ _)⟩
          · cases SerdeJson.assign root c.path v with
            | none => exact ⟨rfl, .some (.json _ _ _ _)⟩
            | some root' => exact ⟨rfl, .some (.json _ _ _ _)⟩
      | text | list | hash | sorted => exact ⟨rfl, .some same⟩

theorem agrees_jsonGet (c : JsonGetCommand) :
    Agrees (J := J) P n n time (jsonGetAccess c : Access S _) (jsonGet (settingAt refuses time now) c) := by
  refine agrees_read (g := documentReply c) (fun e x h => ?_)
  cases h with
  | none => rfl
  | some h => cases h <;> rfl

end Documents

end Commands

end RustKv.Abstract
