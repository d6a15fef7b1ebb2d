import RustKv.Cells
import RustKv.CacheInvariant
import RustKv.SkipChecked

namespace RustKv.ListHash

open Text Protocol Domain CacheStore Zset RustKv.Types Executor

/-- The abstract values: a sequence, and a map from fields to values. -/
inductive Coll
  | list (items : List Bytes)
  | hash (fields : Finmap (fun _ : Str => Bytes))

/-- The commands on lists and hashes. The parser refuses an LPUSH without values and
an HSET without fields. -/
inductive CollCommand
  | lpush (key : Str) (values : List Bytes) (some_value : values ≠ [])
  | lpop (key : Str)
  | hset (key : Str) (fieldValues : List (Str × Bytes)) (some_field : fieldValues ≠ [])
  | hget (key field : Str)
  | hdel (key : Str) (fields : List Str)

section Sequences

variable {items : List Bytes}

def fieldBytes (field : Str) (value : Bytes) : Nat := field.len + value.length

/-- The bytes of the elements, for hashes with those of the fields. -/
def Coll.bytes : Coll → Nat
  | .list items => (items.map List.length).sum
  | .hash fields => weight fieldBytes fields

/-- The bytes that a command brings in. -/
def CollCommand.bytes : CollCommand → Nat
  | .lpush _ values _ => (values.map List.length).sum
  | .hset _ fieldValues _ => (fieldValues.map (fun p => fieldBytes p.1 p.2)).sum
  | .lpop _ | .hget _ _ | .hdel _ _ => 0

theorem pushAll_spec (values items : List Bytes) :
    pushAll (items.map .string) (UInt64.ofNat (Coll.list items).bytes) values =
      ((values.reverse ++ items).map .string, UInt64.ofNat (Coll.list (values.reverse ++ items)).bytes) := by
  induction values generalizing items with
  | nil => rfl
  | cons value values ih =>
      have hheap : UInt64.ofNat (Coll.list items).bytes + (Element.string value).heapSize =
          UInt64.ofNat (Coll.list (value :: items)).bytes := by
        rw [Element.heapSize, ← UInt64.ofNat_add, Nat.add_comm]
        rfl
      rw [pushAll, hheap]
      refine (ih (value :: items)).trans ?_
      simp

end Sequences

section Maps

variable {m : Finmap (fun _ : Str => Bytes)} {map : HashMap} {field : Str} {value old : Bytes}

/-- A stored hash is the map, its values as elements. -/
def Shows (map : HashMap) (m : Finmap (fun _ : Str => Bytes)) : Prop :=
  ∀ field, map.lookup field = (m.lookup field).map .string

theorem Shows.keys (h : Shows map m) : map.keys = m.keys := by
  ext field
  rw [Finmap.mem_keys, Finmap.mem_keys, Finmap.mem_iff, Finmap.mem_iff, h]
  cases m.lookup field <;> simp

theorem Shows.insert (h : Shows map m) (field : Str) (value : Bytes) :
    Shows (map.insert field (.string value)) (m.insert field value) := by
  intro f
  by_cases hf : f = field
  · subst hf
    simp
  · rw [Finmap.lookup_insert_of_ne _ hf, Finmap.lookup_insert_of_ne _ hf, h]

theorem Shows.erase (h : Shows map m) (field : Str) : Shows (map.erase field) (m.erase field) := by
  intro f
  by_cases hf : f = field
  · subst hf
    simp
  · rw [Finmap.lookup_erase_ne hf, Finmap.lookup_erase_ne hf, h]

def setFields (m : Finmap (fun _ : Str => Bytes)) (pairs : List (Str × Bytes)) :
    Finmap (fun _ : Str => Bytes) :=
  pairs.foldl (fun m p => m.insert p.1 p.2) m

/-- How many of the fields are not in the map. -/
def newFields (m : Finmap (fun _ : Str => Bytes)) (fields : List Str) : Nat :=
  (fields.toFinset \ m.keys).card

def eraseFields (m : Finmap (fun _ : Str => Bytes)) (fields : List Str) :
    Finmap (fun _ : Str => Bytes) :=
  fields.foldl (fun m field => m.erase field) m

/-- How many of the fields are in the map. -/
def oldFields (m : Finmap (fun _ : Str => Bytes)) (fields : List Str) : Nat :=
  (fields.toFinset ∩ m.keys).card

theorem newFields_old (h : field ∈ m) (value : Bytes) (fields : List Str) :
    newFields m (field :: fields) = newFields (m.insert field value) fields := by
  have hkeys : (m.insert field value).keys = m.keys := by
    ext f
    rw [Finmap.mem_keys, Finmap.mem_keys, Finmap.mem_insert]
    constructor
    · rintro (rfl | hf)
      · exact h
      · exact hf
    · exact .inr
  rw [newFields, newFields, hkeys, List.toFinset_cons,
    Finset.insert_sdiff_of_mem _ (Finmap.mem_keys.mpr h)]

theorem newFields_new (h : field ∉ m) (value : Bytes) (fields : List Str) :
    newFields m (field :: fields) = newFields (m.insert field value) fields + 1 := by
  have hsplit : (field :: fields).toFinset \ m.keys =
      insert field (fields.toFinset \ (m.insert field value).keys) := by
    ext f
    simp only [List.toFinset_cons, Finset.mem_sdiff, Finset.mem_insert, Finmap.mem_keys, Finmap.mem_insert]
    by_cases hf : f = field
    · simp [hf, h]
    · simp [hf]
  rw [newFields, hsplit, Finset.card_insert_of_notMem]
  · rfl
  · simp [Finmap.mem_keys]

theorem oldFields_old (h : field ∈ m) (fields : List Str) :
    oldFields m (field :: fields) = oldFields (m.erase field) fields + 1 := by
  have hsplit : (field :: fields).toFinset ∩ m.keys =
      insert field (fields.toFinset ∩ (m.erase field).keys) := by
    ext f
    simp only [List.toFinset_cons, Finset.mem_inter, Finset.mem_insert, Finmap.mem_keys, Finmap.mem_erase]
    by_cases hf : f = field
    · simp [hf, h]
    · simp [hf]
  rw [oldFields, hsplit, Finset.card_insert_of_notMem]
  · rfl
  · simp [Finmap.mem_keys]

theorem oldFields_new (h : field ∉ m) (fields : List Str) :
    oldFields m (field :: fields) = oldFields m fields := by
  rw [oldFields, oldFields, List.toFinset_cons,
    Finset.insert_inter_of_notMem (fun hc => h (Finmap.mem_keys.mp hc))]

theorem erase_of_notMem (h : m.lookup field = none) : m.erase field = m := by
  refine Finmap.ext_lookup (fun f => ?_)
  by_cases hf : f = field
  · rw [hf, h, Finmap.lookup_erase]
  · rw [Finmap.lookup_erase_ne hf]

theorem bytes_new (h : m.lookup field = none) (value : Bytes) :
    (Coll.hash (m.insert field value)).bytes = (Coll.hash m).bytes + (field.len + value.length) :=
  (weight_insert_new fieldBytes h value).trans (Nat.add_comm _ _)

theorem bytes_old (h : m.lookup field = some old) (value : Bytes) :
    (Coll.hash (m.insert field value)).bytes + old.length = (Coll.hash m).bytes + value.length := by
  have hweight := weight_insert fieldBytes h value
  change (Coll.hash (m.insert field value)).bytes + (field.len + old.length) =
    field.len + value.length + (Coll.hash m).bytes at hweight
  omega

theorem bytes_erase (h : m.lookup field = some old) :
    (Coll.hash m).bytes = (Coll.hash (m.erase field)).bytes + (field.len + old.length) :=
  (weight_erase fieldBytes h).trans (Nat.add_comm _ _)

theorem hsetAll_spec (pairs : List (Str × Bytes)) (h : Shows map m) (count : Nat) :
    ∃ map', hsetAll map (UInt64.ofNat (Coll.hash m).bytes) count pairs =
        (map', UInt64.ofNat (Coll.hash (setFields m pairs)).bytes,
          count + newFields m (pairs.map Prod.fst)) ∧
      Shows map' (setFields m pairs) := by
  induction pairs generalizing map m count with
  | nil => exact ⟨map, by simp [hsetAll, setFields, newFields], h⟩
  | cons p pairs ih =>
      obtain ⟨field, value⟩ := p
      have hlookup := h field
      rw [hsetAll, hlookup]
      cases hm : m.lookup field with
      | none =>
          obtain ⟨map', heq, hshows⟩ := ih (h.insert field value) (count + 1)
          refine ⟨map', ?_, hshows⟩
          have hheap : UInt64.ofNat (Coll.hash m).bytes +
              (UInt64.ofNat field.len + (Element.string value).heapSize) =
                UInt64.ofNat (Coll.hash (m.insert field value)).bytes := by
            rw [bytes_new hm, UInt64.ofNat_add, UInt64.ofNat_add]
            rfl
          change hsetAll _ (_ + (_ + _)) _ _ = _
          rw [hheap, heq, List.map_cons, newFields_new (Finmap.lookup_eq_none.mp hm) value]
          rw [Nat.add_assoc, Nat.add_comm 1]
          rfl
      | some old =>
          obtain ⟨map', heq, hshows⟩ := ih (h.insert field value) count
          refine ⟨map', ?_, hshows⟩
          have hheap : UInt64.ofNat (Coll.hash m).bytes - (Element.string old).heapSize +
              UInt64.ofNat value.length = UInt64.ofNat (Coll.hash (m.insert field value)).bytes := by
            have hbytes := congrArg UInt64.ofNat (bytes_old hm value)
            rw [UInt64.ofNat_add, UInt64.ofNat_add] at hbytes
            rw [eq_sub_of_add_eq hbytes, Element.heapSize, sub_add_eq_add_sub]
          change hsetAll _ (_ - _ + _) _ _ = _
          rw [hheap, heq, List.map_cons, newFields_old (Finmap.mem_of_lookup_eq_some hm) value]
          rfl

theorem hdelAll_spec (fields : List Str) (h : Shows map m) (count : Nat) :
    ∃ map', hdelAll map (UInt64.ofNat (Coll.hash m).bytes) count fields =
        (map', UInt64.ofNat (Coll.hash (eraseFields m fields)).bytes, count + oldFields m fields) ∧
      Shows map' (eraseFields m fields) := by
  induction fields generalizing map m count with
  | nil => exact ⟨map, by simp [hdelAll, eraseFields, oldFields], h⟩
  | cons field fields ih =>
      have hlookup := h field
      rw [hdelAll, hlookup]
      cases hm : m.lookup field with
      | none =>
          obtain ⟨map', heq, hshows⟩ := ih h count
          have herase : eraseFields m (field :: fields) = eraseFields m fields := by
            change eraseFields (m.erase field) fields = _
            rw [erase_of_notMem hm]
          rw [herase, oldFields_new (Finmap.lookup_eq_none.mp hm)]
          exact ⟨map', heq, hshows⟩
      | some old =>
          obtain ⟨map', heq, hshows⟩ := ih (h.erase field) (count + 1)
          refine ⟨map', ?_, hshows⟩
          have hheap : UInt64.ofNat (Coll.hash m).bytes -
              (UInt64.ofNat field.len + (Element.string old).heapSize) =
                UInt64.ofNat (Coll.hash (m.erase field)).bytes := by
            rw [bytes_erase hm, UInt64.ofNat_add, UInt64.ofNat_add]
            exact add_sub_cancel_right _ _
          change hdelAll _ (_ - (_ + _)) _ _ = _
          rw [hheap, heq, oldFields_old (Finmap.mem_of_lookup_eq_some hm)]
          rw [Nat.add_assoc, Nat.add_comm 1]
          rfl

theorem keys_setFields (m : Finmap (fun _ : Str => Bytes)) (pairs : List (Str × Bytes)) :
    (setFields m pairs).keys = m.keys ∪ (pairs.map Prod.fst).toFinset := by
  induction pairs generalizing m with
  | nil => simp [setFields]
  | cons p pairs ih =>
      obtain ⟨field, value⟩ := p
      refine (ih (m.insert field value)).trans ?_
      ext f
      simp only [List.map_cons, List.toFinset_cons, Finset.mem_union, Finset.mem_insert, Finmap.mem_keys,
        Finmap.mem_insert]
      tauto

end Maps

section Commands

def CollCommand.key : CollCommand → Str
  | .lpush key _ _ | .lpop key | .hset key _ _ | .hget key _ | .hdel key _ => key

/-- The reply to a command and what its key has after it, when it had `coll` before. -/
def CollCommand.onColl : CollCommand → Option Coll → Frame × Option Coll
  | .lpush _ values _, none => (.integer values.length, some (.list values.reverse))
  | .lpush _ values _, some (.list items) =>
      (.integer ((values.reverse ++ items).length), some (.list (values.reverse ++ items)))
  | .lpop _, none => (.null, none)
  | .lpop _, some (.list []) => (.null, none)
  | .lpop _, some (.list (item :: items)) => (.bulk item, if items = [] then none else some (.list items))
  | .hset _ pairs _, none =>
      (.integer (newFields ∅ (pairs.map Prod.fst)), some (.hash (setFields ∅ pairs)))
  | .hset _ pairs _, some (.hash m) =>
      (.integer (newFields m (pairs.map Prod.fst)), some (.hash (setFields m pairs)))
  | .hget _ _, none => (.null, none)
  | .hget _ field, some (.hash m) =>
      (match m.lookup field with
        | some value => .bulk value
        | none => .null, some (.hash m))
  | .hdel _ _, none => (.integer 0, none)
  | .hdel _ fields, some (.hash m) =>
      (.integer (oldFields m fields),
        if (eraseFields m fields).keys = ∅ then none else some (.hash (eraseFields m fields)))
  | _, some coll => (wrongType, some coll)

variable {S J : Type}

def CollCommand.command : CollCommand → Command S
  | .lpush key values _ => .lpush ⟨key, values⟩
  | .lpop key => .lpop ⟨key⟩
  | .hset key fieldValues _ => .hset ⟨key, fieldValues⟩
  | .hget key field => .hget ⟨key, field⟩
  | .hdel key fields => .hdel ⟨key, fields⟩

variable [Host]

def CollCommand.access (rt : Runtime) : CollCommand → Access S (Value S J)
  | .lpush key values _ => lpushAccess rt ⟨key, values⟩ values
  | .lpop key => .take (lpopTaken ⟨key⟩)
  | .hset key fieldValues _ => .take (hsetTaken rt ⟨key, fieldValues⟩)
  | .hget key field => hgetAccess ⟨key, field⟩
  | .hdel key fields => .take (hdelTaken ⟨key, fields⟩)

theorem execute_access {γ : Type} [F64 S] [SerdeJson J] [Context γ (Value S J)] (cmd : CollCommand)
    (rt : Runtime) (now : Nat) (ctx : γ) :
    execute rt now ctx (cmd.command : Command S) = Context.access ctx now cmd.key (cmd.access rt) := by
  cases cmd <;> rfl

/-- What an entry stands for. Its elements_heap is the number of bytes of its elements. -/
inductive Holds : ValueEntry (Value S J) → Coll → Prop
  | list (items : List Bytes) (capacity : UInt64) (some_item : items ≠ []) :
      Holds (newEntry (.list (items.map .string) capacity (UInt64.ofNat (Coll.list items).bytes)) none)
        (.list items)
  | hash (map : HashMap) (m : Finmap (fun _ : Str => Bytes)) (capacity : UInt64) (shows : Shows map m)
      (some_field : m.keys ≠ ∅) :
      Holds (newEntry (.hash map capacity (UInt64.ofNat (Coll.hash m).bytes)) none) (.hash m)

variable {e : ValueEntry (Value S J)} {entry : Option (ValueEntry (Value S J))} {coll : Option Coll}

theorem Holds.expiresAt {c : Coll} (h : Holds e c) : e.expiresAt = none := by
  cases h with
  | list => rfl
  | hash => rfl

theorem unexpired (h : Option.Rel Holds entry coll) (now : Nat) : unlessExpired now entry = entry := by
  refine unlessExpired_eq_self (fun e he => ?_)
  subst he
  cases h with
  | some he => simp [ValueEntry.isExpired, he.expiresAt]

/-- The access does to an entry what the command does to the abstract value. -/
def Matches (cmd : CollCommand) (a : Access S (Value S J)) (now : Nat)
    (entry : Option (ValueEntry (Value S J))) (coll : Option Coll) : Prop :=
  (a.onCell now entry).1.reply = .ok (cmd.onColl coll).1 ∧
    Option.Rel Holds (a.onCell now entry).2 (cmd.onColl coll).2

variable {now : Nat} {rt : Runtime}

theorem lpushOnto_eq (rt : Runtime) (c : LPushCommand) (values items : List Bytes) :
    (lpushOnto rt c values (items.map .string) (UInt64.ofNat (Coll.list items).bytes) none :
      Done S × PutBack (Value S J)) =
      (.logged (.integer (values.reverse ++ items).length) (.lpush c),
        .insert (newEntry (.list ((values.reverse ++ items).map .string) rt.capacity
          (UInt64.ofNat (Coll.list (values.reverse ++ items)).bytes)) none)) := by
  simp only [lpushOnto, pushAll_spec, List.length_map]

theorem lpush_matches {values : List Bytes} (hne : values ≠ []) (key : Str)
    (h : Option.Rel Holds entry coll) :
    Matches (.lpush key values hne) (lpushAccess rt ⟨key, values⟩ values : Access S (Value S J)) now entry coll := by
  have hholds (items : List Bytes) := Holds.list (S := S) (J := J) (values.reverse ++ items) rt.capacity
    (fun hnil => hne (List.reverse_eq_nil_iff.mp (List.append_eq_nil_iff.mp hnil).1))
  simp only [Matches, lpushAccess, if_neg hne, Access.onCell]
  cases h with
  | none =>
      have htaken : lpushTaken rt ⟨key, values⟩ values none = _ :=
        lpushOnto_eq (S := S) (J := J) rt ⟨key, values⟩ values []
      have hnew := hholds []
      rw [List.append_nil] at htaken hnew
      rw [htaken, List.length_reverse]
      exact ⟨rfl, .some hnew⟩
  | some he =>
      cases he with
      | list items capacity hitems =>
          have htaken : lpushTaken rt ⟨key, values⟩ values (some (newEntry (.list (items.map .string) capacity
              (UInt64.ofNat (Coll.list items).bytes)) none)) = _ :=
            lpushOnto_eq (S := S) (J := J) rt ⟨key, values⟩ values items
          rw [htaken]
          exact ⟨rfl, .some (hholds items)⟩
      | hash map m capacity hshows hfields => exact ⟨rfl, .some (.hash map m capacity hshows hfields)⟩

theorem lpop_matches (key : Str) (h : Option.Rel Holds entry coll) :
    Matches (.lpop key) (.take (lpopTaken ⟨key⟩) : Access S (Value S J)) now entry coll := by
  cases h with
  | none => exact ⟨rfl, .none⟩
  | some he =>
      cases he with
      | hash map m capacity hshows hfields => exact ⟨rfl, .some (.hash map m capacity hshows hfields)⟩
      | list items capacity hitems =>
          cases items with
          | nil => exact absurd rfl hitems
          | cons item items =>
              refine ⟨rfl, ?_⟩
              have hheap : UInt64.ofNat (Coll.list (item :: items)).bytes - (Element.string item).heapSize =
                  UInt64.ofNat (Coll.list items).bytes := by
                change UInt64.ofNat (item.length + (Coll.list items).bytes) - UInt64.ofNat item.length = _
                rw [UInt64.ofNat_add]
                exact add_sub_cancel_left _ _
              change Option.Rel Holds ((popRest (items.map .string) capacity
                (UInt64.ofNat (Coll.list (item :: items)).bytes - (Element.string item).heapSize) none).result
                  none) (if items = [] then none else some (.list items))
              rw [hheap, popRest]
              by_cases hnil : items = []
              · rw [if_pos hnil, if_pos (by rw [hnil]; rfl)]
                exact .none
              · rw [if_neg hnil, if_neg (by simpa using hnil)]
                exact .some (.list items capacity hnil)

theorem hset_matches {pairs : List (Str × Bytes)} (hne : pairs ≠ []) (key : Str)
    (h : Option.Rel Holds entry coll) :
    Matches (.hset key pairs hne) (.take (hsetTaken rt ⟨key, pairs⟩) : Access S (Value S J)) now entry coll := by
  have honto {map : HashMap} {m : Finmap (fun _ : Str => Bytes)} (hshows : Shows map m) :
      ∃ map', hsetOnto rt ⟨key, pairs⟩ map (UInt64.ofNat (Coll.hash m).bytes) none =
        ((.logged (.integer (newFields m (pairs.map Prod.fst))) (.hset ⟨key, pairs⟩),
          .insert (newEntry (.hash map' rt.capacity
            (UInt64.ofNat (Coll.hash (setFields m pairs)).bytes)) none)) : Done S × PutBack (Value S J)) ∧
        Holds (newEntry (.hash map' rt.capacity (UInt64.ofNat (Coll.hash (setFields m pairs)).bytes)) none :
          ValueEntry (Value S J)) (.hash (setFields m pairs)) := by
    obtain ⟨map', hset, hshows'⟩ := hsetAll_spec pairs hshows 0
    refine ⟨map', by simp only [hsetOnto, hset, Nat.zero_add], .hash _ _ _ hshows' ?_⟩
    obtain ⟨p, rest, rfl⟩ := List.exists_cons_of_ne_nil hne
    rw [keys_setFields]
    refine Finset.Nonempty.ne_empty ⟨p.1, ?_⟩
    simp
  have hempty : Shows (∅ : HashMap) ∅ := fun _ => rfl
  simp only [Matches, Access.onCell]
  cases h with
  | none =>
      obtain ⟨map', hset, hholds⟩ := honto hempty
      have htaken : hsetTaken rt ⟨key, pairs⟩ none = _ := hset
      rw [htaken]
      exact ⟨rfl, .some hholds⟩
  | some he =>
      cases he with
      | list items capacity hitems => exact ⟨rfl, .some (.list items capacity hitems)⟩
      | hash map m capacity hshows hfields =>
          obtain ⟨map', hset, hholds⟩ := honto hshows
          have htaken : hsetTaken rt ⟨key, pairs⟩ (some (newEntry (.hash map capacity
              (UInt64.ofNat (Coll.hash m).bytes)) none)) = _ := hset
          rw [htaken]
          exact ⟨rfl, .some hholds⟩

theorem hget_matches (key field : Str) (h : Option.Rel Holds entry coll) :
    Matches (.hget key field) (hgetAccess ⟨key, field⟩ : Access S (Value S J)) now entry coll := by
  simp only [Matches, hgetAccess, Access.onCell, unexpired h]
  cases h with
  | none => exact ⟨rfl, .none⟩
  | some he =>
      cases he with
      | list items capacity hitems => exact ⟨rfl, .some (.list items capacity hitems)⟩
      | hash map m capacity hshows hfields =>
          refine ⟨?_, .some (.hash map m capacity hshows hfields)⟩
          simp only [newEntry_data, CollCommand.onColl, hshows field]
          cases m.lookup field with
          | none => rfl
          | some value => rfl

theorem hdel_matches (key : Str) (fields : List Str) (h : Option.Rel Holds entry coll) :
    Matches (.hdel key fields) (.take (hdelTaken ⟨key, fields⟩) : Access S (Value S J)) now entry coll := by
  simp only [Matches, Access.onCell]
  cases h with
  | none => exact ⟨rfl, .none⟩
  | some he =>
      cases he with
      | list items capacity hitems => exact ⟨rfl, .some (.list items capacity hitems)⟩
      | hash map m capacity hshows hfields =>
          obtain ⟨map', hdel, hshows'⟩ := hdelAll_spec fields hshows 0
          simp only [hdelTaken, newEntry_data, hdel, Nat.zero_add, CollCommand.onColl, hshows'.keys]
          refine ⟨rfl, ?_⟩
          by_cases hnil : (eraseFields m fields).keys = ∅
          · rw [if_pos hnil, if_pos hnil]
            exact .none
          · rw [if_neg hnil, if_neg hnil]
            exact .some (.hash map' _ capacity hshows' hnil)

/-- A command does to the entry of its key what it does to the abstract value. -/
theorem access_matches (cmd : CollCommand) (rt : Runtime) (now : Nat) (h : Option.Rel Holds entry coll) :
    Matches cmd (cmd.access rt : Access S (Value S J)) now entry coll := by
  cases cmd with
  | lpush key values hne => exact lpush_matches hne key h
  | lpop key => exact lpop_matches key h
  | hset key pairs hne => exact hset_matches hne key h
  | hget key field => exact hget_matches key field h
  | hdel key fields => exact hdel_matches key fields h

end Commands

section Checked

/-! The loops in a build with overflow checks, where they only have to come to the end
of elements_heap. None is a panic. -/

def pushAllChecked (elementsHeap : UInt64) : List Bytes → Option UInt64
  | [] => some elementsHeap
  | item :: items => do
      let elementsHeap ← checkedAdd elementsHeap (Element.string item).heapSize
      pushAllChecked elementsHeap items

def hsetAllChecked (map : HashMap) (elementsHeap : UInt64) : List (Str × Bytes) → Option UInt64
  | [] => some elementsHeap
  | (field, value) :: rest => do
      let el := Element.string value
      let addedSize ← checkedAdd (UInt64.ofNat field.len) el.heapSize
      match map.lookup field with
      | some oldVal =>
          let elementsHeap ← checkedSub elementsHeap oldVal.heapSize
          let elementsHeap ← checkedAdd elementsHeap (UInt64.ofNat value.length)
          hsetAllChecked (map.insert field el) elementsHeap rest
      | none =>
          let elementsHeap ← checkedAdd elementsHeap addedSize
          hsetAllChecked (map.insert field el) elementsHeap rest

def hdelAllChecked (map : HashMap) (elementsHeap : UInt64) : List Str → Option UInt64
  | [] => some elementsHeap
  | field :: rest =>
      match map.lookup field with
      | some oldVal => do
          let removedSize ← checkedAdd (UInt64.ofNat field.len) oldVal.heapSize
          let elementsHeap ← checkedSub elementsHeap removedSize
          hdelAllChecked (map.erase field) elementsHeap rest
      | none => hdelAllChecked map elementsHeap rest

variable {S J : Type}

def elementsHeap : Option (Value S J) → UInt64
  | some (.list _ _ heap) => heap
  | some (.hash _ _ heap) => heap
  | _ => 0

/-- The elements_heap that a command comes to in such a build. -/
def CollCommand.heapChecked (cmd : CollCommand) (data : Option (Value S J)) : Option UInt64 :=
  match cmd, data with
  | .lpush _ values _, none => pushAllChecked 0 values
  | .lpush _ values _, some (.list _ _ heap) => pushAllChecked heap values
  | .lpop _, some (.list (item :: _) _ heap) => checkedSub heap item.heapSize
  | .hset _ fieldValues _, none => hsetAllChecked ∅ 0 fieldValues
  | .hset _ fieldValues _, some (.hash map _ heap) => hsetAllChecked map heap fieldValues
  | .hdel _ fields, some (.hash map _ heap) => hdelAllChecked map heap fields
  | _, data => some (elementsHeap data)

def bytesOf (coll : Option Coll) : Nat := (coll.map Coll.bytes).getD 0

theorem checkedAdd_bytes {m n : Nat} (h : m + n < 2 ^ 64) :
    checkedAdd (UInt64.ofNat m) (UInt64.ofNat n) = some (UInt64.ofNat (m + n)) := by
  rw [checkedAdd_ofNat h, UInt64.ofNat_add]

theorem checkedSub_bytes {m n : Nat} (h : m + n < 2 ^ 64) :
    checkedSub (UInt64.ofNat (m + n)) (UInt64.ofNat n) = some (UInt64.ofNat m) := by
  rw [checkedSub_ofNat (Nat.le_add_left n m) h, UInt64.ofNat_add]
  exact congrArg some (add_sub_cancel_right _ _)

theorem pushAllChecked_eq {values items : List Bytes}
    (h : (Coll.list items).bytes + (values.map List.length).sum < 2 ^ 64) :
    pushAllChecked (UInt64.ofNat (Coll.list items).bytes) values =
      some (UInt64.ofNat (Coll.list (values.reverse ++ items)).bytes) := by
  induction values generalizing items with
  | nil => rfl
  | cons value values ih =>
      rw [List.map_cons, List.sum_cons] at h
      have hbytes : (Coll.list items).bytes + value.length = (Coll.list (value :: items)).bytes := Nat.add_comm _ _
      rw [pushAllChecked, Element.heapSize, checkedAdd_bytes (by omega), hbytes]
      have hrest : pushAllChecked (UInt64.ofNat (Coll.list (value :: items)).bytes) values = _ := ih (by omega)
      rw [List.reverse_cons, List.append_assoc]
      exact hrest

variable {map : HashMap} {m : Finmap (fun _ : Str => Bytes)}

theorem hsetAllChecked_eq {pairs : List (Str × Bytes)} (hshows : Shows map m)
    (h : (Coll.hash m).bytes + (pairs.map (fun p => fieldBytes p.1 p.2)).sum < 2 ^ 64) :
    hsetAllChecked map (UInt64.ofNat (Coll.hash m).bytes) pairs =
      some (UInt64.ofNat (Coll.hash (setFields m pairs)).bytes) := by
  induction pairs generalizing map m with
  | nil => rfl
  | cons p pairs ih =>
      obtain ⟨field, value⟩ := p
      rw [List.map_cons, List.sum_cons] at h
      change _ + (field.len + value.length + _) < _ at h
      have hlookup := hshows field
      rw [hsetAllChecked, Element.heapSize, checkedAdd_bytes (by omega), hlookup]
      cases hm : m.lookup field with
      | none =>
          have hnew := bytes_new hm value
          simp only [Option.map_none, Option.bind_eq_bind, Option.bind_some]
          rw [checkedAdd_bytes (by omega), ← hnew]
          exact ih (hshows.insert field value) (by omega)
      | some old =>
          have hold := bytes_old hm value
          have herase := bytes_erase hm
          have hsplit : (Coll.hash m).bytes = ((Coll.hash m).bytes - old.length) + old.length := by omega
          have hnew : (Coll.hash m).bytes - old.length + value.length =
              (Coll.hash (m.insert field value)).bytes := by omega
          simp only [Option.map_some, Option.bind_eq_bind, Option.bind_some]
          rw [Element.heapSize, hsplit, checkedSub_bytes (by omega), Option.bind_some,
            checkedAdd_bytes (by omega), hnew]
          exact ih (hshows.insert field value) (by omega)

theorem hdelAllChecked_eq {fields : List Str} (hshows : Shows map m) (h : (Coll.hash m).bytes < 2 ^ 64) :
    hdelAllChecked map (UInt64.ofNat (Coll.hash m).bytes) fields =
      some (UInt64.ofNat (Coll.hash (eraseFields m fields)).bytes) := by
  induction fields generalizing map m with
  | nil => rfl
  | cons field fields ih =>
      have hlookup := hshows field
      rw [hdelAllChecked, hlookup]
      cases hm : m.lookup field with
      | none =>
          change hdelAllChecked map _ fields = some (UInt64.ofNat (Coll.hash
            (eraseFields (m.erase field) fields)).bytes)
          rw [erase_of_notMem hm]
          exact ih hshows h
      | some old =>
          have herase := bytes_erase hm
          simp only [Option.map_some, Option.bind_eq_bind]
          rw [Element.heapSize, checkedAdd_bytes (by omega), Option.bind_some, herase,
            checkedSub_bytes (by omega), Option.bind_some]
          exact ih (hshows.erase field) (by omega)

theorem bytes_of_keys (h : m.keys = ∅) : (Coll.hash m).bytes = 0 := by
  have hempty : m = ∅ := by
    refine Finmap.ext_lookup (fun field => ?_)
    rw [Finmap.lookup_empty, Finmap.lookup_eq_none, ← Finmap.mem_keys, h]
    exact Finset.notMem_empty field
  rw [hempty]
  rfl

/-- No addition and no subtraction of a command overflows, as long as what is stored and
what the command brings are less than 2^64 bytes. -/
theorem heapChecked_eq [Host] {entry : Option (ValueEntry (Value S J))} {coll : Option Coll}
    (cmd : CollCommand) (h : Option.Rel Holds entry coll) (hfit : bytesOf coll + cmd.bytes < 2 ^ 64) :
    cmd.heapChecked (entry.map ValueEntry.data) = some (UInt64.ofNat (bytesOf (cmd.onColl coll).2)) := by
  have hempty : Shows (∅ : HashMap) ∅ := fun _ => rfl
  cases cmd with
  | lpush key values hne =>
      cases h with
      | none =>
          have hpush : pushAllChecked (UInt64.ofNat (Coll.list []).bytes) values = _ := pushAllChecked_eq hfit
          rw [List.append_nil] at hpush
          exact hpush
      | some he =>
          cases he with
          | list items capacity hitems => exact pushAllChecked_eq hfit
          | hash => rfl
  | lpop key =>
      cases h with
      | none => rfl
      | some he =>
          cases he with
          | hash => rfl
          | list items capacity hitems =>
              cases items with
              | nil => exact absurd rfl hitems
              | cons item items =>
                  have hbytes : (Coll.list (item :: items)).bytes = (Coll.list items).bytes + item.length :=
                    Nat.add_comm _ _
                  have hlt : (Coll.list (item :: items)).bytes < 2 ^ 64 := hfit
                  change checkedSub (UInt64.ofNat (Coll.list (item :: items)).bytes)
                    (UInt64.ofNat item.length) = some (UInt64.ofNat (bytesOf
                      (if items = [] then none else some (.list items))))
                  rw [hbytes, checkedSub_bytes (by omega)]
                  by_cases hnil : items = []
                  · rw [if_pos hnil, hnil]
                    rfl
                  · rw [if_neg hnil]
                    rfl
  | hset key pairs hne =>
      cases h with
      | none => exact hsetAllChecked_eq hempty hfit
      | some he =>
          cases he with
          | list => rfl
          | hash map m capacity hshows hfields => exact hsetAllChecked_eq hshows hfit
  | hget key field =>
      cases h with
      | none => rfl
      | some he => cases he <;> rfl
  | hdel key fields =>
      cases h with
      | none => rfl
      | some he =>
          cases he with
          | list => rfl
          | hash map m capacity hshows hfields =>
              refine (hdelAllChecked_eq hshows hfit).trans ?_
              rw [CollCommand.onColl]
              by_cases hnil : (eraseFields m fields).keys = ∅
              · rw [if_pos hnil, bytes_of_keys hnil]
                rfl
              · rw [if_neg hnil]
                rfl

end Checked

end RustKv.ListHash
