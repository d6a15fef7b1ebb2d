import RustKv.LogicalValue

namespace RustKv.Executor

open Text Protocol Domain CacheStore Zset RustKv.Types

variable {S J : Type}

section Hashes

theorem hsetAll_map (pairs : List (Str × Bytes)) (map : HashMap) (n n' : UInt64) (count : Nat) :
    (hsetAll map n count pairs).1 = (hsetAll map n' count pairs).1 ∧
      (hsetAll map n count pairs).2.2 = (hsetAll map n' count pairs).2.2 := by
  induction pairs generalizing map n n' count with
  | nil => exact ⟨rfl, rfl⟩
  | cons p pairs ih =>
      simp only [hsetAll]
      cases map.lookup p.1 with
      | none => exact ih _ _ _ _
      | some old => exact ih _ _ _ _

theorem hdelAll_map (fields : List Str) (map : HashMap) (n n' : UInt64) (count : Nat) :
    (hdelAll map n count fields).1 = (hdelAll map n' count fields).1 ∧
      (hdelAll map n count fields).2.2 = (hdelAll map n' count fields).2.2 := by
  induction fields generalizing map n n' count with
  | nil => exact ⟨rfl, rfl⟩
  | cons field fields ih =>
      simp only [hdelAll]
      cases map.lookup field with
      | none => exact ih _ _ _ _
      | some old => exact ih _ _ _ _

variable [Host]

theorem hset_respects (rt rt' : Runtime) (c : HSetCommand) :
    Respects (S := S) (J := J) (hsetTaken rt c) (hsetTaken rt' c) := by
  intro e e' h
  cases sameValue h with
  | none => exact ⟨rfl, rfl⟩
  | hash map a b a' b' x x' n n' =>
      obtain ⟨hmap, hcount⟩ := hsetAll_map c.fieldValues map b b' 0
      simp [hsetTaken, hsetOnto, PutBack.result, logicalOf, logical, hmap, hcount]
  | simple | list | json => exact ⟨rfl, rfl⟩
  | zset z z' hz => exact ⟨rfl, h⟩

theorem hset_faithful (rt : Runtime) (c : HSetCommand) :
    Faithful (S := S) (J := J) (.hset c) (hsetTaken rt c) where
  logged e d' h := by
    rcases e with _ | ⟨v, x, n⟩
    · cases h; exact ⟨rfl, _, rfl⟩
    · cases v with
      | hash => cases h; exact ⟨rfl, _, rfl⟩
      | simple | list | zset | json => cases h
  silent e h := by
    rcases e with _ | ⟨v, x, n⟩
    · cases h
    · cases v with
      | hash => cases h
      | simple | list | zset | json => exact .inl rfl
  expires e e' h := by
    rcases e with _ | ⟨v, x, n⟩
    · cases h; rfl
    · cases v with
      | hash => cases h; rfl
      | simple | list | zset | json => cases h; rfl
  filled e hf := by
    rcases e with _ | ⟨v, x, n⟩
    · simp [hsetTaken, hsetOnto, Filled, logicalOf, logical, PutBack.result]
    · cases v with
      | hash => simp [hsetTaken, hsetOnto, Filled, logicalOf, logical, PutBack.result]
      | simple | list | zset | json => exact hf

theorem hdel_respects (c : HDelCommand) :
    Respects (S := S) (J := J) (hdelTaken c) (hdelTaken c) := by
  intro e e' h
  cases sameValue h with
  | none => exact ⟨rfl, rfl⟩
  | hash map a b a' b' x x' n n' =>
      obtain ⟨hmap, hcount⟩ := hdelAll_map c.fields map b b' 0
      refine ⟨?_, ?_⟩
      · simp only [hdelTaken, hcount]
      · simp only [hdelTaken, hmap]
        split <;> rfl
  | simple | list | json => exact ⟨rfl, rfl⟩
  | zset z z' hz => exact ⟨rfl, h⟩

theorem hdel_faithful (c : HDelCommand) :
    Faithful (S := S) (J := J) (.hdel c) (hdelTaken c) where
  logged e d' h := by
    rcases e with _ | ⟨v, x, n⟩
    · cases h
    · cases v with
      | hash => cases h; exact ⟨rfl, _, rfl⟩
      | simple | list | zset | json => cases h
  silent e h := by
    rcases e with _ | ⟨v, x, n⟩
    · exact .inl rfl
    · cases v with
      | hash => cases h
      | simple | list | zset | json => exact .inl rfl
  expires e e' h := by
    rcases e with _ | ⟨v, x, n⟩
    · cases h
    · cases v with
      | hash map a b =>
          simp only [hdelTaken] at h
          split at h <;> cases h
          rfl
      | simple | list | zset | json => cases h; rfl
  filled e hf := by
    rcases e with _ | ⟨v, x, n⟩
    · exact hf
    · cases v with
      | hash =>
          simp only [hdelTaken]
          split <;> simp [Filled, logicalOf, logical, PutBack.result]
      | simple | list | zset | json => exact hf

end Hashes

section SortedSets

theorem insert_dict [Score S] (rt rt' : Runtime) {z z' : ZSet S} (h : z.dict = z'.dict) (score : S)
    (member : Bytes) : (z.insert rt score member).1 = (z'.insert rt' score member).1 ∧
      (z.insert rt score member).2.dict = (z'.insert rt' score member).2.dict := by
  unfold ZSet.insert
  rw [h]
  cases z'.dict.lookup member with
  | none => exact ⟨rfl, rfl⟩
  | some old =>
      simp only
      split
      · exact ⟨rfl, h⟩
      · exact ⟨rfl, rfl⟩

theorem delete_dict [Score S] {z z' : ZSet S} (h : z.dict = z'.dict) (member : Bytes) :
    (z.delete member).1 = (z'.delete member).1 ∧
      (z.delete member).2.dict = (z'.delete member).2.dict := by
  unfold ZSet.delete
  rw [h]
  cases z'.dict.lookup member with
  | none => exact ⟨rfl, h⟩
  | some score => exact ⟨rfl, rfl⟩

theorem delete_false [Score S] {z : ZSet S} {member : Bytes} (h : (z.delete member).1 = false) :
    (z.delete member).2 = z := by
  unfold ZSet.delete at h ⊢
  cases hl : z.dict.lookup member with
  | none => rfl
  | some score => rw [hl] at h; cases h

theorem len_dict {z z' : ZSet S} (h : z.dict = z'.dict) : z.len = z'.len := by
  rw [ZSet.len, ZSet.len, h]

variable [Host] [F64 S]

theorem zadd_respects (rt rt' : Runtime) (c : ZAddCommand S) :
    Respects (J := J) (zaddTaken rt c) (zaddTaken rt' c) := by
  intro e e' h
  cases sameValue h with
  | none =>
      refine ⟨rfl, ?_⟩
      have hz := (insert_dict rt rt' (rfl : (ZSet.new : ZSet S).dict = _) c.score c.member).2
      simp [zaddTaken, zsetEntry, PutBack.result, logicalOf, logical, hz]
  | zset z z' hz a a' x x' n n' =>
      obtain ⟨hnew, hdict⟩ := insert_dict rt rt' hz c.score c.member
      simp [zaddTaken, zsetEntry, PutBack.result, logicalOf, logical, hnew, hdict]
  | simple | list | hash | json => exact ⟨rfl, rfl⟩

theorem zadd_faithful (rt : Runtime) (c : ZAddCommand S) :
    Faithful (J := J) (.zadd c) (zaddTaken rt c) where
  logged e d' h := by
    rcases e with _ | ⟨v, x, n⟩
    · cases h; exact ⟨rfl, _, rfl⟩
    · cases v with
      | zset => cases h; exact ⟨rfl, _, rfl⟩
      | simple | list | hash | json => cases h
  silent e h := by
    rcases e with _ | ⟨v, x, n⟩
    · cases h
    · cases v with
      | zset => cases h
      | simple | list | hash | json => exact .inl rfl
  expires e e' h := by
    rcases e with _ | ⟨v, x, n⟩
    · cases h; rfl
    · cases v with
      | zset => cases h; rfl
      | simple | list | hash | json => cases h; rfl
  filled e hf := by
    rcases e with _ | ⟨v, x, n⟩
    · simp [zaddTaken, zsetEntry, Filled, logicalOf, logical, PutBack.result]
    · cases v with
      | zset => simp [zaddTaken, zsetEntry, Filled, logicalOf, logical, PutBack.result]
      | simple | list | hash | json => exact hf

theorem zrem_respects (c : ZRemCommand) : Respects (S := S) (J := J) (zremTaken c) (zremTaken c) := by
  intro e e' h
  cases sameValue h with
  | none => exact ⟨rfl, rfl⟩
  | zset z z' hz a a' x x' n n' =>
      obtain ⟨hgone, hdict⟩ := delete_dict hz c.member
      simp only [zremTaken]
      cases hd : z.delete c.member with
      | mk b t =>
          cases hd' : z'.delete c.member with
          | mk b' t' =>
              rw [hd, hd'] at hgone
              have ht : t.dict = t'.dict := by rwa [hd, hd'] at hdict
              cases hgone
              cases b with
              | false =>
                  refine ⟨rfl, ?_⟩
                  simp [zsetEntry, PutBack.result, logicalOf, logical, ht]
              | true =>
                  refine ⟨rfl, ?_⟩
                  simp only [len_dict ht]
                  split
                  · rfl
                  · simp [zsetEntry, PutBack.result, logicalOf, logical, ht]
  | simple | list | hash | json => exact ⟨rfl, rfl⟩

theorem zrem_faithful (c : ZRemCommand) : Faithful (S := S) (J := J) (.zrem c) (zremTaken c) where
  logged e d' h := by
    rcases e with _ | ⟨v, x, n⟩
    · cases h
    · cases v with
      | zset z =>
          simp only [zremTaken] at h ⊢
          cases hd : z.delete c.member with
          | mk b t =>
              rw [hd] at h
              cases b with
              | false => cases h
              | true => cases h; exact ⟨rfl, _, rfl⟩
      | simple | list | hash | json => cases h
  silent e h := by
    left
    rcases e with _ | ⟨v, x, n⟩
    · rfl
    · cases v with
      | zset z =>
          simp only [zremTaken] at h ⊢
          cases hd : z.delete c.member with
          | mk b t =>
              rw [hd] at h
              cases b with
              | false =>
                  have ht : t = z := by
                    have hgone : (z.delete c.member).1 = false := by rw [hd]
                    have hz := delete_false hgone
                    rwa [hd] at hz
                  subst ht
                  rfl
              | true => cases h
      | simple | list | hash | json => rfl
  expires e e' h := by
    rcases e with _ | ⟨v, x, n⟩
    · cases h
    · cases v with
      | zset z =>
          simp only [zremTaken] at h
          cases hd : z.delete c.member with
          | mk b t =>
              rw [hd] at h
              cases b with
              | false => cases h; rfl
              | true =>
                  simp only at h
                  split at h <;> cases h
                  rfl
      | simple | list | hash | json => cases h; rfl
  filled e hf := by
    rcases e with _ | ⟨v, x, n⟩
    · exact hf
    · cases v with
      | zset z =>
          simp only [zremTaken]
          cases z.delete c.member with
          | mk b t =>
              cases b with
              | false => simp [zsetEntry, Filled, logicalOf, logical, PutBack.result]
              | true =>
                  simp only
                  split <;> simp [zsetEntry, Filled, logicalOf, logical, PutBack.result]
      | simple | list | hash | json => exact hf

end SortedSets

section Json

variable [Host] [SerdeJson J]

theorem jsonSet_respects (c : JsonSetCommand) (v : J) :
    Respects (S := S) (jsonSetTaken c v) (jsonSetTaken c v) := by
  intro e e' h
  cases sameValue h with
  | none => exact ⟨rfl, rfl⟩
  | json root a a' x x' n n' =>
      simp only [jsonSetTaken]
      split
      · exact ⟨rfl, rfl⟩
      · cases SerdeJson.assign root c.path v <;> exact ⟨rfl, rfl⟩
  | simple | list | hash => exact ⟨rfl, rfl⟩
  | zset z z' hz => exact ⟨rfl, h⟩

theorem jsonSet_faithful (c : JsonSetCommand) (v : J) :
    Faithful (S := S) (.jsonSet c) (jsonSetTaken c v) where
  logged e d' h := by
    rcases e with _ | ⟨w, x, n⟩
    · simp only [jsonSetTaken] at h ⊢
      split at h
      · next hr => cases h; rw [if_pos hr]; exact ⟨rfl, _, rfl⟩
      · cases h
    · cases w with
      | json root a =>
          simp only [jsonSetTaken] at h ⊢
          split at h
          · next hr => cases h; rw [if_pos hr]; exact ⟨rfl, _, rfl⟩
          · next hr =>
            rw [if_neg hr]
            cases ha : SerdeJson.assign root c.path v with
            | none => rw [ha] at h; cases h
            | some root' => rw [ha] at h; cases h; exact ⟨rfl, _, rfl⟩
      | simple | list | hash | zset => cases h
  silent e h := by
    left
    rcases e with _ | ⟨w, x, n⟩
    · simp only [jsonSetTaken] at h ⊢
      split at h
      · cases h
      · next hr => rw [if_neg hr]; rfl
    · cases w with
      | json root a =>
          simp only [jsonSetTaken] at h ⊢
          split at h
          · cases h
          · next hr =>
            rw [if_neg hr]
            cases ha : SerdeJson.assign root c.path v with
            | none => rfl
            | some root' => rw [ha] at h; cases h
      | simple | list | hash | zset => rfl
  expires e e' h := by
    rcases e with _ | ⟨w, x, n⟩
    · simp only [jsonSetTaken] at h
      split at h <;> cases h
      rfl
    · cases w with
      | json root a =>
          simp only [jsonSetTaken] at h
          split at h
          · cases h; rfl
          · cases ha : SerdeJson.assign root c.path v <;> rw [ha] at h <;> cases h <;> rfl
      | simple | list | hash | zset => cases h; rfl
  filled e hf := by
    rcases e with _ | ⟨w, x, n⟩
    · simp only [jsonSetTaken]
      split <;> simp [Filled, logicalOf, logical, PutBack.result]
    · cases w with
      | json root a =>
          simp only [jsonSetTaken]
          split
          · simp [jsonUpdate, Filled, logicalOf, logical, PutBack.result]
          · cases SerdeJson.assign root c.path v <;>
              simp [jsonUpdate, Filled, logicalOf, logical, PutBack.result]
      | simple | list | hash | zset => exact hf

end Json

end RustKv.Executor
