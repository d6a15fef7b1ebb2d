import RustKv.Clones
import RustKv.Collections

namespace RustKv.Sizes

open Text Protocol Domain CacheStore Zset RustKv.Types Executor RequestReading Expiry RustKv.Normal Lua
  Collections Clones

section Contents

variable {S J : Type}

def elementBytes : Element → Nat
  | .string b => b.length
  | .int _ => 0

def listBytes (deque : List Element) : Nat := (deque.map elementBytes).sum

def hashBytes (map : HashMap) : Nat := weight (fun field el => field.len + elementBytes el) map

/-- The length of a document when it is written out. -/
def jsonBytes [SerdeJson J] (root : J) : Nat :=
  match SerdeJson.toStr root with
  | some s => s.len
  | none => 0

theorem heapSize_eq (el : Element) : el.heapSize = UInt64.ofNat (elementBytes el) := by
  cases el <;> rfl

theorem jsonSize_eq [SerdeJson J] (root : J) : jsonSize root = UInt64.ofNat (jsonBytes root) := by
  rw [jsonSize, jsonBytes]
  cases SerdeJson.toStr root <;> rfl

variable [Host] [SerdeJson J]

/-- The bytes on the heap of what a value now holds, with the room of its container. -/
def contentBytes : Value S J → Nat
  | .simple el => elementBytes el
  | .list deque capacity _ => listBytes deque + capacity.toNat * Host.sizeOfElement
  | .hash map capacity _ => hashBytes map + capacity.toNat * (Host.sizeOfString + Host.sizeOfElement)
  | .zset z _ => z.dictCapacity.toNat * (Host.sizeOfBytes + 8 + 8) + z.nodesCapacity.toNat * Host.sizeOfSkipNode
  | .json root _ => jsonBytes root

/-- The count that a list or a hash keeps of its elements is right. -/
def Counted : Value S J → Prop
  | .list deque _ heap => heap = UInt64.ofNat (listBytes deque)
  | .hash map _ heap => heap = UInt64.ofNat (hashBytes map)
  | .simple _ | .zset _ _ | .json _ _ => True

/-- The recorded size is that of the entry and of its content. -/
def SizeRight (e : ValueEntry (Value S J)) : Prop :=
  e.dataSize = UInt64.ofNat (Host.sizeOfValueEntry + contentBytes e.data)

def Sized (e : ValueEntry (Value S J)) : Prop := SizeRight e ∧ Counted e.data

theorem sized_new {data : Value S J} (h : data.heapMemorySize = UInt64.ofNat (contentBytes data))
    (hc : Counted data) (x : Option Nat) : Sized (newEntry data x) := by
  refine ⟨?_, hc⟩
  rw [SizeRight, UInt64.ofNat_add, newEntry_data, ← h]
  rfl

theorem sized_simple (value : Bytes) (x : Option Nat) :
    Sized (newEntry (simpleValue value : Value S J) x) := by
  rw [simpleValue]
  split
  · apply sized_new
    · rfl
    · trivial
  · apply sized_new
    · rfl
    · trivial

theorem sized_list {deque : List Element} {heap : UInt64} (h : heap = UInt64.ofNat (listBytes deque))
    (capacity : UInt64) (x : Option Nat) : Sized (newEntry (.list deque capacity heap : Value S J) x) := by
  apply sized_new
  · rw [contentBytes, UInt64.ofNat_add, UInt64.ofNat_mul, UInt64.ofNat_toNat, ← h]
    rfl
  · exact h

theorem sized_hash {map : HashMap} {heap : UInt64} (h : heap = UInt64.ofNat (hashBytes map))
    (capacity : UInt64) (x : Option Nat) : Sized (newEntry (.hash map capacity heap : Value S J) x) := by
  apply sized_new
  · rw [contentBytes, UInt64.ofNat_add, UInt64.ofNat_mul, UInt64.ofNat_toNat, UInt64.ofNat_add, ← h]
    rfl
  · exact h

theorem sized_zset [F64 S] (z : ZSet S) (x : Option Nat) : Sized (zsetEntry (J := J) z x) := by
  apply sized_new
  · rw [contentBytes, UInt64.ofNat_add, UInt64.ofNat_mul, UInt64.ofNat_mul, UInt64.ofNat_toNat, UInt64.ofNat_toNat]
    rfl
  · trivial

theorem sized_json (root : J) (x : Option Nat) : Sized (newEntry (.json root (jsonSize root) : Value S J) x) := by
  apply sized_new
  · exact jsonSize_eq root
  · trivial

end Contents

section Commands

variable {S J : Type}

theorem listBytes_cons (el : Element) (deque : List Element) :
    listBytes (el :: deque) = elementBytes el + listBytes deque := rfl

theorem pushAll_counted (items : List Bytes) (list : List Element) :
    (pushAll list (UInt64.ofNat (listBytes list)) items).2 =
      UInt64.ofNat (listBytes (pushAll list (UInt64.ofNat (listBytes list)) items).1) := by
  induction items generalizing list with
  | nil => rfl
  | cons item items ih =>
      have hnext : UInt64.ofNat (listBytes list) + (Element.string item).heapSize =
          UInt64.ofNat (listBytes (.string item :: list)) := by
        rw [listBytes_cons, UInt64.ofNat_add, heapSize_eq, add_comm]
      simp only [pushAll, hnext]
      exact ih _

theorem Counted.list {data : Value S J} (h : Counted data) {deque : List Element} {capacity heap : UInt64}
    (hdata : data = .list deque capacity heap) : heap = UInt64.ofNat (listBytes deque) := by
  rwa [hdata] at h

theorem Counted.hash {data : Value S J} (h : Counted data) {map : HashMap} {capacity heap : UInt64}
    (hdata : data = .hash map capacity heap) : heap = UInt64.ofNat (hashBytes map) := by
  rwa [hdata] at h

section Hashes

variable {map : HashMap} {field : Str} {old : Element}

theorem hashBytes_old (h : map.lookup field = some old) (value : Bytes) :
    UInt64.ofNat (hashBytes map) - old.heapSize + UInt64.ofNat value.length =
      UInt64.ofNat (hashBytes (map.insert field (.string value))) := by
  have hbytes : hashBytes (map.insert field (.string value)) + elementBytes old = hashBytes map + value.length := by
    have hweight := weight_insert (fun field el => field.len + elementBytes el) h (.string value)
    change hashBytes (map.insert field (.string value)) + (field.len + elementBytes old) =
      field.len + value.length + hashBytes map at hweight
    omega
  have hcast := congrArg UInt64.ofNat hbytes
  rw [UInt64.ofNat_add, UInt64.ofNat_add] at hcast
  rw [heapSize_eq, eq_sub_of_add_eq hcast, sub_add_eq_add_sub]

theorem hashBytes_new (h : map.lookup field = none) (value : Bytes) :
    UInt64.ofNat (hashBytes map) + (UInt64.ofNat field.len + (Element.string value).heapSize) =
      UInt64.ofNat (hashBytes (map.insert field (.string value))) := by
  have hbytes : hashBytes (map.insert field (.string value)) = hashBytes map + (field.len + value.length) := by
    have hweight := weight_insert_new (fun field el => field.len + elementBytes el) h (.string value)
    exact hweight.trans (Nat.add_comm _ _)
  rw [hbytes, UInt64.ofNat_add, UInt64.ofNat_add]
  rfl

theorem hashBytes_erase (h : map.lookup field = some old) :
    UInt64.ofNat (hashBytes map) - (UInt64.ofNat field.len + old.heapSize) =
      UInt64.ofNat (hashBytes (map.erase field)) := by
  have hbytes : hashBytes map = field.len + elementBytes old + hashBytes (map.erase field) := weight_erase _ h
  rw [hbytes, UInt64.ofNat_add, UInt64.ofNat_add, heapSize_eq]
  exact add_sub_cancel_left _ _

end Hashes

theorem hsetAll_counted (pairs : List (Str × Bytes)) (map : HashMap) (count : Nat) :
    (hsetAll map (UInt64.ofNat (hashBytes map)) count pairs).2.1 =
      UInt64.ofNat (hashBytes (hsetAll map (UInt64.ofNat (hashBytes map)) count pairs).1) := by
  induction pairs generalizing map count with
  | nil => rfl
  | cons p pairs ih =>
      obtain ⟨field, value⟩ := p
      cases hl : map.lookup field with
      | some old =>
          simp only [hsetAll, hl, hashBytes_old hl]
          exact ih _ _
      | none =>
          simp only [hsetAll, hl, hashBytes_new hl]
          exact ih _ _

theorem hdelAll_counted (fields : List Str) (map : HashMap) (count : Nat) :
    (hdelAll map (UInt64.ofNat (hashBytes map)) count fields).2.1 =
      UInt64.ofNat (hashBytes (hdelAll map (UInt64.ofNat (hashBytes map)) count fields).1) := by
  induction fields generalizing map count with
  | nil => rfl
  | cons field fields ih =>
      cases hl : map.lookup field with
      | some old =>
          simp only [hdelAll, hl, hashBytes_erase hl]
          exact ih _ _
      | none =>
          simp only [hdelAll, hl]
          exact ih _ _

variable [Host] [SerdeJson J]

theorem sized_set (now : Nat) (c : SetCommand) : Keeps Sized (setAccess (S := S) (J := J) now c) := by
  have hentry : Sized (setEntry (S := S) (J := J) now c) := sized_simple c.value _
  rw [setAccess]
  split
  · intro entry _
    simp only
    split
    · trivial
    · trivial
    · exact hentry
  · exact hentry

/-- What a command on lists must find to leave a right size: a list whose elements are
counted right, or a value of another type with the right size, which it puts back. -/
structure ListReady (found : Option (ValueEntry (Value S J))) : Prop where
  counted : ∀ e, found = some e → Counted e.data
  other : ∀ e, found = some e → (∀ deque capacity heap, e.data ≠ .list deque capacity heap) → Sized e

theorem listReady {found : Option (ValueEntry (Value S J))} (h : Within Sized found) : ListReady found where
  counted e he := (h e he).2
  other e he _ := h e he

/-- A command on sorted sets takes the size of a sorted set anew. -/
def ZSetReady (found : Option (ValueEntry (Value S J))) : Prop :=
  ∀ e, found = some e → (∀ zset size, e.data ≠ .zset zset size) → Sized e

theorem zsetReady {found : Option (ValueEntry (Value S J))} (h : Within Sized found) : ZSetReady found :=
  fun e he _ => h e he

theorem sized_lpush (rt : Runtime) (c : LPushCommand) (values : List Bytes)
    {found : Option (ValueEntry (Value S J))} (h : ListReady found) :
    Restores Sized found (lpushAccess (S := S) rt c values) := by
  rw [lpushAccess]
  split
  · trivial
  · cases found with
    | none => exact sized_list (pushAll_counted values []) _ _
    | some e =>
        change PutsBack Sized (lpushTaken rt c values (some e)).2
        simp only [lpushTaken]
        split
        · next hdata =>
          cases (h.counted e rfl).list hdata
          exact sized_list (pushAll_counted values _) _ _
        · next hother => exact h.other e rfl hother

theorem sized_popRest {data : Value S J} (h : Counted data) {item : Element} {list : List Element}
    {capacity heap : UInt64} (hdata : data = .list (item :: list) capacity heap) (x : Option Nat) :
    PutsBack Sized (popRest (S := S) (J := J) list capacity (heap - item.heapSize) x) := by
  rw [popRest]
  split
  · trivial
  · apply sized_list
    rw [h.list hdata, listBytes_cons, UInt64.ofNat_add, heapSize_eq]
    exact add_sub_cancel_left _ _

theorem sized_lpop (c : LPopCommand) {found : Option (ValueEntry (Value S J))} (h : ListReady found) :
    PutsBack Sized (lpopTaken (S := S) c found).2 := by
  cases found with
  | none => trivial
  | some e =>
      simp only [lpopTaken]
      split
      · next hdata => exact sized_popRest (h.counted e rfl) hdata _
      · trivial
      · next hcons hnil =>
        apply h.other e rfl
        intro deque capacity heap hdata
        cases deque with
        | nil => exact hnil capacity heap hdata
        | cons item list => exact hcons item list capacity heap hdata

theorem sized_blpop (c : BLPopCommand) {found : Option (ValueEntry (Value S J))} (h : ListReady found) :
    PutsBack Sized (blpopTaken (S := S) c found).2 := by
  cases found with
  | none => trivial
  | some e =>
      simp only [blpopTaken]
      split
      · next hdata => exact sized_popRest (h.counted e rfl) hdata _
      · next hdata => exact sized_list ((h.counted e rfl).list hdata) _ _
      · next hcons hnil =>
        apply h.other e rfl
        intro deque capacity heap hdata
        cases deque with
        | nil => exact hnil capacity heap hdata
        | cons item list => exact hcons item list capacity heap hdata

theorem sized_hset (rt : Runtime) (c : HSetCommand) :
    Keeps Sized (.take (hsetTaken rt c) : Access S (Value S J)) := by
  intro entry h
  cases entry with
  | none => exact sized_hash (hsetAll_counted c.fieldValues ∅ 0) _ _
  | some e =>
      simp only [hsetTaken]
      split
      · next hdata =>
        cases (h e rfl).2.hash hdata
        exact sized_hash (hsetAll_counted c.fieldValues _ 0) _ _
      · exact h e rfl

theorem sized_hdel (c : HDelCommand) : Keeps Sized (.take (hdelTaken c) : Access S (Value S J)) := by
  intro entry h
  cases entry with
  | none => trivial
  | some e =>
      simp only [hdelTaken]
      split
      · next hdata =>
        cases (h e rfl).2.hash hdata
        simp only
        split
        · trivial
        · exact sized_hash (hdelAll_counted c.fields _ 0) _ _
      · exact h e rfl

theorem sized_zadd [F64 S] (rt : Runtime) (c : ZAddCommand S) {found : Option (ValueEntry (Value S J))}
    (h : ZSetReady found) : PutsBack Sized (zaddTaken rt c found).2 := by
  cases found with
  | none => exact sized_zset _ _
  | some e =>
      simp only [zaddTaken]
      split
      · exact sized_zset _ _
      · next hother => exact h e rfl hother

theorem sized_zrem [F64 S] (c : ZRemCommand) {found : Option (ValueEntry (Value S J))}
    (h : ZSetReady found) : PutsBack Sized (zremTaken (S := S) c found).2 := by
  cases found with
  | none => trivial
  | some e =>
      simp only [zremTaken]
      split
      · split
        · split
          · trivial
          · exact sized_zset _ _
        · exact sized_zset _ _
      · next hother => exact h e rfl hother

/-- The document that a JSON.SET makes of the one it finds, if it makes one. -/
def jsonAfter (c : JsonSetCommand) (root : J) : Option J :=
  (SerdeJson.fromStr c.value).bind (fun newJsonVal =>
    if isRoot c.path then some newJsonVal else SerdeJson.assign root c.path newJsonVal)

/-- A JSON.SET on a document leaves one that is as long when it is written out. -/
def SameLength : Condition S J
  | .jsonSet c, _, some e => ∀ root size root', e.data = .json root size → jsonAfter c root = some root' →
      jsonBytes root' = jsonBytes root
  | _, _, _ => True

/-- A size that is kept from another value is right only if both are as large. -/
theorem sizeRight_with_iff {e : ValueEntry (Value S J)} (h : SizeRight e) (data : Value S J) :
    SizeRight { e with data := data } ↔
      UInt64.ofNat (contentBytes data) = UInt64.ofNat (contentBytes e.data) := by
  rw [SizeRight] at h
  simp only [SizeRight, h, UInt64.ofNat_add, add_right_inj]
  exact eq_comm

theorem sizeRight_json_iff {e : ValueEntry (Value S J)} (h : SizeRight e) {root : J} {size : UInt64}
    (hdata : e.data = .json root size) (root' : J) (size' : UInt64) :
    SizeRight (S := S) { e with data := .json root' size' } ↔
      UInt64.ofNat (jsonBytes root') = UInt64.ofNat (jsonBytes root) := by
  rw [sizeRight_with_iff h, hdata]
  rfl

theorem sized_jsonSet {c : JsonSetCommand} {v : J} (hv : SerdeJson.fromStr c.value = some v)
    {a : Access S (Value S J)} {found : Option (ValueEntry (Value S J))} (hq : SameLength (.jsonSet c) a found)
    (h : Within Sized found) : PutsBack Sized (jsonSetTaken (S := S) c v found).2 := by
  cases found with
  | none =>
      simp only [jsonSetTaken]
      split
      · exact sized_json v none
      · trivial
  | some e =>
      obtain ⟨hsize, -⟩ := h e rfl
      simp only [jsonSetTaken]
      split
      · next root size hdata =>
        have hupdate (root' : J) (hafter : jsonAfter c root = some root') (size' : UInt64) :
            Sized (S := S) { e with data := .json root' size' } :=
          ⟨(sizeRight_json_iff hsize hdata root' size').mpr
            (congrArg UInt64.ofNat (hq root size root' hdata hafter)), trivial⟩
        split
        · next hroot => exact hupdate v (by simp [jsonAfter, hv, hroot]) _
        · next hroot =>
          split
          · next root' hassign => exact hupdate root' (by simp [jsonAfter, hv, hroot, hassign]) _
          · exact ⟨(sizeRight_json_iff hsize hdata root 0).mpr rfl, trivial⟩
      · exact h e rfl

variable [F64 S]

theorem preserves_sized : Preserves (S := S) (J := J) Sized SameLength where
  mset value := sized_simple value none
  keyed {rt now values c key a found} _ hk hq hfound := by
    cases c with
    | set c =>
        cases hk
        exact (sized_set now c).restores hfound
    | lpush c =>
        cases hk
        exact sized_lpush rt c _ (listReady hfound)
    | lpop c =>
        cases hk
        exact sized_lpop c (listReady hfound)
    | blpop c =>
        cases hk
        exact sized_blpop c (listReady hfound)
    | hset c =>
        cases hk
        exact (sized_hset rt c).restores hfound
    | hdel c =>
        cases hk
        exact (sized_hdel c).restores hfound
    | zadd c =>
        cases hk
        exact sized_zadd rt c (zsetReady hfound)
    | zrem c =>
        cases hk
        exact sized_zrem c (zsetReady hfound)
    | jsonSet c =>
        obtain ⟨v, hv, hp⟩ := Option.map_eq_some_iff.mp hk
        cases hp
        exact sized_jsonSet hv hq hfound
    | get | hget | jsonGet | zscore | zrank | zrange =>
        cases hk
        trivial
    | mset | mget | ping | unimplement | eval | multi | exec | multiGroup => cases hk

section Cloned

/-- A list, or the nodes of a sorted set, with more room than a clone has. -/
def Roomy : Value S J → Prop
  | .list deque capacity _ => capacity ≠ UInt64.ofNat deque.length
  | .zset zset _ => zset.nodesCapacity ≠ UInt64.ofNat zset.zsl.list.nodes.length
  | .simple _ => False
  | .hash _ _ _ => False
  | .json _ _ => False

/-- The command makes a new entry of such a value and takes its size anew. -/
def Replaces : Command S → Value S J → Prop
  | .lpush _, .list _ _ _ => True
  | .lpop _, .list _ _ _ => True
  | .blpop _, .list _ _ _ => True
  | .zadd _, .zset _ _ => True
  | .zrem _, .zset _ _ => True
  | _, _ => False

def Takes : Access S (Value S J) → Prop
  | .take _ => True
  | .select _ => False
  | .insert _ _ => False
  | .read _ => False

/-- No value with room to spare is cloned only to be put back. -/
def Snug : Condition S J := fun c a cloned => ∀ e, cloned = some e → Takes a → Roomy e.data → Replaces c e.data

omit [Host] [SerdeJson J] [F64 S]

theorem cloneEntry_eq {e : ValueEntry (Value S J)} (h : ¬ Roomy e.data) : cloneEntry e = e := by
  obtain ⟨data, x, size⟩ := e
  cases data with
  | list deque capacity heap => rw [cloneEntry, cloneValue, ← not_not.mp h]
  | zset zset n => rw [cloneEntry, cloneValue, ← not_not.mp h]
  | simple | hash | json => rfl

theorem restores_cloning {P : ValueEntry (Value S J) → Prop} {found : Option (ValueEntry (Value S J))}
    {a : Access S (Value S J)} (htake : Takes a → Restores P (found.map cloneEntry) a) (h : Restores P found a) :
    Restores P found (cloning a) := by
  cases a with
  | take f => exact htake trivial
  | select | insert | read => exact h

variable [Host] [SerdeJson J]

theorem listReady_clone {e : ValueEntry (Value S J)} (h : Sized e) {deque : List Element} {capacity heap : UInt64}
    (hdata : e.data = .list deque capacity heap) : ListReady (some (cloneEntry e)) := by
  have hclone : (cloneEntry e).data = .list deque (UInt64.ofNat deque.length) heap := by
    rw [cloneEntry, hdata, cloneValue]
  constructor
  · rintro _ ⟨⟩
    rw [hclone]
    exact h.2.list hdata
  · rintro _ ⟨⟩ hother
    exact absurd hclone (hother _ _ _)

theorem zsetReady_clone {e : ValueEntry (Value S J)} {zset : ZSet S} {n : UInt64} (hdata : e.data = .zset zset n) :
    ZSetReady (some (cloneEntry e)) := by
  rintro _ ⟨⟩ hother
  have hclone : (cloneEntry e).data =
      .zset { zset with nodesCapacity := UInt64.ofNat zset.zsl.list.nodes.length } n := by
    rw [cloneEntry, hdata, cloneValue]
  exact absurd hclone (hother _ _)

variable [F64 S]

theorem sized_cloned {rt : Runtime} {now : Nat} {c : Command S} {key : Str} {a : Access S (Value S J)}
    {e : ValueEntry (Value S J)} (hk : keyed rt now (fun c => c.values) c = some (key, a))
    (hreplaces : Replaces c e.data) (h : Sized e) : Restores Sized (some (cloneEntry e)) a := by
  cases hdata : e.data with
  | list deque capacity heap =>
      rw [hdata] at hreplaces
      cases c with
      | lpush c =>
          cases hk
          exact sized_lpush rt c _ (listReady_clone h hdata)
      | lpop c =>
          cases hk
          exact sized_lpop c (listReady_clone h hdata)
      | blpop c =>
          cases hk
          exact sized_blpop c (listReady_clone h hdata)
      | _ => cases hreplaces
  | zset zset n =>
      rw [hdata] at hreplaces
      cases c with
      | zadd c =>
          cases hk
          exact sized_zadd rt c (zsetReady_clone hdata)
      | zrem c =>
          cases hk
          exact sized_zrem c (zsetReady_clone hdata)
      | _ => cases hreplaces
  | simple | hash | json =>
      rw [hdata] at hreplaces
      cases c <;> cases hreplaces

theorem preserves_cloned : Clones.Preserves (S := S) (J := J) Sized SameLength Snug where
  toPreserves := preserves_sized
  cloned {rt now c key a found} hc hk hq hr hfound := by
    have hkept : Restores Sized found a := preserves_sized.keyed hc hk hq hfound
    apply restores_cloning _ hkept
    intro htakes
    cases found with
    | none => exact hkept
    | some e =>
        by_cases hroomy : Roomy e.data
        · exact sized_cloned hk (hr e rfl htakes hroomy) (hfound e rfl)
        · rwa [Option.map_some, cloneEntry_eq hroomy]

end Cloned

end Commands

section Placement

variable {S J : Type} [Host]

/-- A key is in no shard but its own. -/
def Placed (db : Db (Value S J)) : Prop :=
  ∀ i k, Host.shardIndex k ≠ i → (db.shards i).dbStore.lookup k = none

theorem placed_new (configType : Eviction.EvictionType) : Placed (Db.new configType : Db (Value S J)) :=
  fun _ k _ => Finmap.lookup_empty k

theorem Placed.unlock {db : Db (Value S J)} (h : Placed db) {j : Fin Host.numShards} {g : Guard (Value S J)}
    (hg : ∀ k, Host.shardIndex k ≠ j → g.shard.dbStore.lookup k = none) : Placed (db.unlock j g) := by
  intro i k hk
  simp only [Db.unlock]
  by_cases hi : i = j
  · subst hi
    rw [Function.update_self]
    exact hg k hk
  · rw [Function.update_of_ne hi]
    exact h i k hk

theorem Placed.access {db : Db (Value S J)} (h : Placed db) (now : Nat) (key : Str) (a : Access S (Value S J)) :
    Placed (db.access now key a).2 := by
  have hother {k : Str} (hk : Host.shardIndex k ≠ Host.shardIndex key) : k ≠ key := fun he => hk (he ▸ rfl)
  cases hr : a.reads with
  | false =>
      obtain ⟨g, hg, hlookup⟩ := run_writeguard hr now key (db.lock (Host.shardIndex key))
      simp only [Db.access, hr, Bool.false_eq_true, if_false, hg]
      apply h.unlock
      intro k hk
      rw [DirectCacheNode.guard, hlookup, if_neg (hother hk)]
      exact h _ k hk
  | true =>
      cases a with
      | read f =>
          obtain ⟨g, hg, hstore⟩ := run_readguard (S := S) f now key (db.lock (Host.shardIndex key))
          simp only [Db.access, hr, if_true, hg]
          apply h.unlock
          intro k hk
          rw [DirectCacheNode.guard, hstore]
          exact h _ k hk
      | take | select | insert => cases hr

theorem Placed.evict {db : Db (Value S J)} (h : Placed db) {i : Fin Host.numShards} {g : Guard (Value S J)}
    (he : Evicts (db.lock i) g) : Placed (db.unlock i g) := by
  apply h.unlock
  intro k hk
  rcases he k with hsame | hnone
  · rw [hsame]
    exact h i k hk
  · exact hnone

/-- Nor does a script have anything for a key in another shard. -/
def SessionsPlaced (sessions : Sessions (Value S J)) : Prop :=
  ∀ i node, sessions.lookup i = some node →
    Writes node ∧ ∀ k, Host.shardIndex k ≠ i → nodeCell node k = ⟨none, none⟩

theorem SessionsPlaced.access {sessions : Sessions (Value S J)} (h : SessionsPlaced sessions) (now : Nat)
    (key : Str) (a : Access S (Value S J)) : SessionsPlaced (sessions.access now key a).2 := by
  intro i node hi
  rw [Sessions.access_lookup] at hi
  split at hi
  · next he =>
    subst he
    obtain ⟨old, hold, rfl⟩ := Option.map_eq_some_iff.mp hi
    obtain ⟨hw, hcells⟩ := h _ old hold
    obtain ⟨-, hw', hcell⟩ := run_cell a hw now key
    refine ⟨hw', fun k hk => ?_⟩
    rw [hcell, Function.update_of_ne (fun he : k = key => hk (he ▸ rfl))]
    exact hcells k hk
  · exact h i node hi

theorem Placed.abandon {db : Db (Value S J)} (h : Placed db) {sessions : Sessions (Value S J)}
    (hs : SessionsPlaced sessions) : Placed (release db (abandoned sessions)) := by
  intro i k hk
  simp only [release, abandoned]
  cases hl : sessions.lookup i with
  | none => exact h i k hk
  | some node =>
      have hcell := (hs i node hl).2 k hk
      exact congrArg LuaCell.base hcell

theorem Placed.commit {db : Db (Value S J)} (h : Placed db) {sessions : Sessions (Value S J)}
    (hs : SessionsPlaced sessions) {drained : Fin Host.numShards → List (Str × ChangeOp (Value S J))}
    (hd : ∀ i node, sessions.lookup i = some node → Drains node.differMap (drained i)) :
    Placed (release db (committed sessions drained)) := by
  intro i k hk
  simp only [release, committed]
  cases hl : sessions.lookup i with
  | none => exact h i k hk
  | some node =>
      obtain ⟨⟨g, hg⟩, hcells⟩ := hs i node hl
      obtain ⟨g', hg', hlookup⟩ := commit_lookup hg (hd i node hl)
      have hchange : node.differMap.lookup k = none := congrArg LuaCell.change (hcells k hk)
      have hbase : node.dbStore.store.lookup k = none := congrArg LuaCell.base (hcells k hk)
      rw [hg] at hbase
      simp only [Option.map_some, hg', DirectCacheNode.guard, hlookup, hchange]
      exact hbase

theorem Placed.lockAll {db : Db (Value S J)} (h : Placed db) (shards : List (Fin Host.numShards)) :
    SessionsPlaced (lockAll db shards) := by
  intro i node hi
  rw [lockAll_lookup] at hi
  split at hi
  · cases hi
    refine ⟨⟨_, rfl⟩, fun k hk => ?_⟩
    have hbase : (lockWriteLua (db.shards i)).dbStore.store.lookup k = none := h i k hk
    rw [nodeCell, hbase]
    rfl
  · cases hi

variable [F64 S] [SerdeJson J] {Q R : Condition S J}

theorem Placed.step {db db' : Db (Value S J)} (h : Placed db) (hs : Clones.Step Q R db db') : Placed db' := by
  have hscript (keys : List Str) (moments : Nat → Moment) (script : Script) :
      SessionsPlaced (Clones.scriptRun db keys moments script).2.sessions.sessions :=
    cloning_keeps (fun n _ key a hs => hs.access (moments n).now key a) script (h.lockAll (shardIndices keys))
  cases hs with
  | normal rt now queues hc hq => exact answer_keeps (fun _ now key a hdb => hdb.access now key a) rt now queues _ h
  | recovery rt now hc hq =>
      exact execute_keeps (fun _ _ _ hdb => hdb.access _ _ _) (fun _ _ hdb => hdb.access _ _ _)
        (fun _ _ _ => h.access _ _ _) h
  | @commit keys moments script frame env drained hrun hd hq =>
      have hplaced := hscript keys moments script
      rw [hrun] at hplaced
      exact h.commit hplaced hd
  | @rollback keys moments script text env hrun =>
      have hplaced := hscript keys moments script
      rw [hrun] at hplaced
      exact h.abandon hplaced
  | evictionTtl now sample i => exact h.evict (evictionTtl_evicts now sample (db.lock i))
  | evictionMemory i => exact h.evict (evictionMemory_evicts (db.lock i))

theorem placed_run {configType : Eviction.EvictionType} {db : Db (Value S J)}
    (h : Relation.ReflTransGen (Clones.Step Q R) (Db.new configType) db) : Placed db := by
  induction h with
  | refl => exact placed_new configType
  | tail _ hs ih => exact ih.step hs

end Placement

section Runs

theorem ofNat_total {D : Type} {f g : ValueEntry D → Nat} (m : Finmap (fun _ : Str => ValueEntry D))
    (h : ∀ k e, m.lookup k = some e → UInt64.ofNat (f e) = UInt64.ofNat (g e)) :
    UInt64.ofNat (total f m) = UInt64.ofNat (total g m) := by
  have hcast (size : ValueEntry D → Nat) : UInt64.ofNat (total size m) =
      (m.entries.map (fun e => UInt64.ofNat (size e.2))).sum := by
    rw [total]
    induction m.entries using Multiset.induction_on with
    | empty => rfl
    | cons e entries ih =>
        rw [Multiset.map_cons, Multiset.sum_cons, UInt64.ofNat_add, ih, Multiset.map_cons, Multiset.sum_cons]
  rw [hcast f, hcast g]
  congr 1
  apply Multiset.map_congr rfl
  intro e he
  exact h e.1 e.2 (Finmap.lookup_eq_some_iff.mpr he)

variable {S J : Type} [Host] [F64 S] [SerdeJson J]

/-- As long as every JSON.SET on a document leaves one of the same length and no script puts
back a clone that has less room, the size of each entry is that of its content, and the
counters of the shards are those of all they hold. -/
theorem recorded_sizes {configType : Eviction.EvictionType} {db : Db (Value S J)}
    (h : Relation.ReflTransGen (Clones.Step SameLength Snug) (Db.new configType) db) :
    (∀ k e, db.entry k = some e → SizeRight e) ∧
    ∀ i, (db.shards i).node.approxMemory = UInt64.ofNat
      (total (fun e => Host.sizeOfValueEntry + contentBytes e.data) (db.shards i).dbStore) := by
  have hall : AllIn Sized db := run_all_in preserves_cloned h
  refine ⟨fun k e he => (hall k e he).1, fun i => ?_⟩
  rw [(db.shards i).wf.memory]
  apply ofNat_total
  intro k e he
  have hi : Host.shardIndex k = i := by
    by_contra hne
    rw [show (db.shards i).node.dbStore.lookup k = none from placed_run h i k hne] at he
    cases he
  rw [UInt64.ofNat_toNat]
  subst hi
  exact (hall k e he).1

end Runs

section Sample

attribute [local instance] singleShard wholeScore flatJson

/-- JSON.SET k / with the given document. -/
def sampleJsonSet (value : Str) : JsonSetCommand := ⟨listKey, Str.ofAscii (ascii ['/']) (by decide), value⟩

def oneDigit : Str := Str.ofAscii (ascii ['1']) (by decide)

def otherDigit : Str := Str.ofAscii (ascii ['2']) (by decide)

def twoDigits : Str := Str.ofAscii (ascii ['2', '2']) (by decide)

theorem sampleJsonSet_parsed {value : Str} (h : value.bytes.length < 2 ^ 31) :
    Parsed (Command.jsonSet (S := UInt64) (sampleJsonSet value)) := by
  refine Recovery.parsed_of_aofFrame
    (show AofRoundTrip.aofFrame 0 (Command.jsonSet (S := UInt64) (sampleJsonSet value)) = some _ from rfl)
    (by simp [AofRoundTrip.Loggable]) ?_
  simp [Fits, FitsAll, ascii, sampleJsonSet, listKey, Str.ofAscii]
  omega

def afterJsonSet (db : Db (Value UInt64 Str)) (value : Str) : Db (Value UInt64 Str) :=
  (execute ⟨[], 0, 0⟩ 0 db (Command.jsonSet (S := UInt64) (sampleJsonSet value))).2

theorem afterJsonSet_new (value : Str) : (afterJsonSet (Db.new .lru) value).entry listKey =
    some (newEntry (.json value (jsonSize value)) none) := rfl

theorem afterJsonSet_again (first value : Str) :
    (afterJsonSet (afterJsonSet (Db.new .lru) first) value).entry listKey =
      some ⟨.json value (jsonSize value), none, (newEntry (S := UInt64) (.json first (jsonSize first)) none).dataSize⟩ := rfl

theorem jsonSet_step (db : Db (Value UInt64 Str)) {value : Str} (h : value.bytes.length < 2 ^ 31)
    {Q R : Condition UInt64 Str} (hq : ∀ a, Q (.jsonSet (sampleJsonSet value)) a (db.entry listKey)) :
    Clones.Step Q R db (afterJsonSet db value) := by
  refine .recovery ⟨[], 0, 0⟩ 0 (sampleJsonSet_parsed h) ?_
  rintro key a ⟨⟩
  exact hq _

/-- A document that grows keeps the size of the first one. -/
theorem grown_document_size : Clones.Reachable (afterJsonSet (afterJsonSet (Db.new .lru) oneDigit) twoDigits) ∧
    ∃ e, (afterJsonSet (afterJsonSet (Db.new .lru) oneDigit) twoDigits).entry listKey = some e ∧
      ¬ SizeRight e := by
  refine ⟨⟨.lru, .tail (.single (jsonSet_step _ (by decide) (fun _ => trivial)))
    (jsonSet_step _ (by decide) (fun _ => trivial))⟩, _, afterJsonSet_again oneDigit twoDigits, ?_⟩
  intro h
  exact absurd (show (89 : UInt64) = 90 from h) (by decide)

def roomKey : Str := Str.ofAscii (ascii ['q']) (by decide)

def sampleShard : Fin Host.numShards := ⟨0, by decide⟩

/-- A digit in place of another, and LPUSH q a with room for four. -/
def roomDb : Db (Value UInt64 Str) :=
  (execute ⟨[], 4, 0⟩ 0 (afterJsonSet (afterJsonSet (Db.new .lru) oneDigit) otherDigit)
    (.lpush (S := UInt64) ⟨roomKey, [ascii ['a']]⟩)).2

def roomMoments : Nat → Moment := fun _ => ⟨⟨[], 8, 0⟩, 0⟩

def roomEnv (c : Call) : CurrentRequestEnv (CloningSessions UInt64 Str) UInt64 :=
  ((Script.call c (fun _ => .ret .null)).run roomMoments 0 ⟨⟨lockAll roomDb [sampleShard]⟩, []⟩).2

def roomAfter (c : Call) (e : ValueEntry (Value UInt64 Str)) : Db (Value UInt64 Str) :=
  release roomDb (committed (roomEnv c).sessions.sessions (fun _ => [(roomKey, .update e)]))

theorem roomDb_steps : Relation.ReflTransGen (Clones.Step SameLength Snug) (Db.new .lru) roomDb := by
  have hfirst : Clones.Step SameLength Snug (Db.new .lru) (afterJsonSet (Db.new .lru) oneDigit) :=
    jsonSet_step _ (by decide) (fun _ => trivial)
  have hsecond : Clones.Step SameLength Snug (afterJsonSet (Db.new .lru) oneDigit)
      (afterJsonSet (afterJsonSet (Db.new .lru) oneDigit) otherDigit) := by
    refine jsonSet_step _ (by decide) (fun _ => ?_)
    rw [afterJsonSet_new]
    rintro root size root' ⟨⟩ ⟨⟩
    rfl
  have hpushed : Parsed (Command.lpush (S := UInt64) ⟨roomKey, [ascii ['a']]⟩) := by
    refine Recovery.parsed_of_aofFrame
      (show AofRoundTrip.aofFrame 0 (Command.lpush (S := UInt64) ⟨roomKey, [ascii ['a']]⟩) = some _ from rfl)
      (by simp [AofRoundTrip.Loggable]) ?_
    simp [Fits, FitsAll, ascii, roomKey, Str.ofAscii]
  refine .tail (.tail (.single hfirst) hsecond) (.recovery ⟨[], 4, 0⟩ 0 hpushed ?_)
  rintro key a ⟨⟩
  trivial

theorem room_step {Q R : Condition UInt64 Str} (c : Call) (e : ValueEntry (Value UInt64 Str))
    (hmap : ((roomEnv c).sessions.sessions.lookup sampleShard).map (fun node => node.differMap) =
      some ((∅ : Finmap (fun _ : Str => ChangeOp (Value UInt64 Str))).insert roomKey (.update e)))
    (hq : ∀ command, CommandParser.tryFrom (.array (c.args.map .bulk)) = .ok command →
      CallMeets Q R ⟨⟨lockAll roomDb [sampleShard]⟩, []⟩ (roomMoments 0) command) :
    Clones.Step Q R roomDb (roomAfter c e) := by
  have hshards : shardIndices [roomKey] = [sampleShard] := by
    simp only [shardIndices, List.map_cons, List.map_nil, List.mergeSort_singleton]
    rfl
  have hrun : Clones.scriptRun roomDb [roomKey] roomMoments (.call c (fun _ => .ret .null)) =
      (.ok .null, roomEnv c) := by
    rw [Clones.scriptRun, hshards]
    rfl
  refine .commit hrun ?_ ?_
  · intro i node hi
    have h0 : i = sampleShard := Fin.ext (Nat.lt_one_iff.mp i.isLt)
    rw [h0] at hi
    rw [hi] at hmap
    have hdiffer : node.differMap = _ := Option.some.inj hmap
    rw [hdiffer]
    exact drains_empty.insert (Finmap.lookup_empty roomKey) _
  · rw [hshards]
    exact ⟨hq, trivial⟩

/-- redis.call("LPUSH", "q", "b") -/
def pushCall : Call where
  args := [ascii ['L', 'P', 'U', 'S', 'H'], roomKey.bytes, ascii ['b']]
  fits := by simp [Fits, FitsAll, ascii, roomKey, Str.ofAscii]

def pushedEntry : ValueEntry (Value UInt64 Str) :=
  newEntry (.list [.string (ascii ['b']), .string (ascii ['a'])] 8 2) none

/-- A list that a script has cloned and made longer, beside the document. -/
theorem same_length_sample : ∃ e, (roomAfter pushCall pushedEntry).entry roomKey = some pushedEntry ∧
    SizeRight pushedEntry ∧ (roomAfter pushCall pushedEntry).entry listKey = some e ∧ SizeRight e := by
  have hstep : Clones.Step SameLength Snug roomDb (roomAfter pushCall pushedEntry) := by
    refine room_step pushCall pushedEntry rfl ?_
    rintro command ⟨⟩
    constructor
    · rintro key a ⟨⟩
      trivial
    · rintro key a ⟨⟩ e ⟨⟩ - -
      trivial
  have hsizes := (recorded_sizes (.tail roomDb_steps hstep)).1
  have hlist : (roomAfter pushCall pushedEntry).entry roomKey = some pushedEntry := rfl
  obtain ⟨e, he⟩ : ∃ e, (roomAfter pushCall pushedEntry).entry listKey = some e := ⟨_, rfl⟩
  exact ⟨e, hlist, hsizes roomKey _ hlist, he, hsizes listKey e he⟩

/-- redis.call("HSET", "q", "f", "v") -/
def hsetCall : Call where
  args := [ascii ['H', 'S', 'E', 'T'], roomKey.bytes, ascii ['f'], ascii ['v']]
  fits := by simp [Fits, FitsAll, ascii, roomKey, Str.ofAscii]

/-- Room for one, with the size of room for four. -/
def staleEntry : ValueEntry (Value UInt64 Str) :=
  ⟨.list [.string (ascii ['a'])] 1 1, none,
    (newEntry (S := UInt64) (J := Str) (.list [.string (ascii ['a'])] 4 1) none).dataSize⟩

/-- A clone that is put back because it is no hash keeps the size of the list with its room. -/
theorem stale_clone_size : Clones.Reachable (roomAfter hsetCall staleEntry) ∧
    (roomAfter hsetCall staleEntry).entry roomKey = some staleEntry ∧ ¬ SizeRight staleEntry := by
  refine ⟨⟨.lru, ?_⟩, rfl, ?_⟩
  · have hstep : Clones.Step (fun _ _ _ => True) (fun _ _ _ => True) roomDb (roomAfter hsetCall staleEntry) :=
      room_step hsetCall staleEntry rfl (fun _ _ => ⟨fun _ _ _ => trivial, fun _ _ _ => trivial⟩)
    exact .tail (Relation.ReflTransGen.mono (fun _ _ => Step.free) _ _ roomDb_steps) hstep
  · intro h
    exact absurd (show (217 : UInt64) = 121 from h) (by decide)

end Sample

end RustKv.Sizes
