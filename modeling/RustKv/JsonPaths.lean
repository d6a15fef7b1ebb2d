import RustKv.Cells
import RustKv.JsonPointer

namespace RustKv.Executor

open Text Decimal Protocol Domain CacheStore RustKv.Types JsonPointer

/-- The tokens the commands take a path for. A single / is the whole document to them. -/
def pathTokens (path : Bytes) : Option (List Bytes) :=
  if path = ascii ['/'] then some [] else tokens path

theorem pathTokens_root {path : Str} (h : isRoot path = true) : pathTokens path.bytes = some [] := by
  rw [isRoot, Bool.or_eq_true, beq_iff_eq, beq_iff_eq] at h
  rcases h with h | h
  · rw [pathTokens, if_pos h]
  · rw [h]
    rfl

theorem pathTokens_inner {path : Str} (h : isRoot path = false) :
    pathTokens path.bytes = tokens path.bytes := by
  rw [isRoot, Bool.or_eq_false_iff, beq_eq_false_iff_ne] at h
  rw [pathTokens, if_neg h.1]

section Nodes

variable {N : Type} {locate : Bytes → Option (List Bytes)} {d d' v : Json N} {p q : Str}

/-- The node that a path designates, when `locate` reads the path. -/
def node (locate : Bytes → Option (List Bytes)) (d : Json N) (path : Str) : Option (Json N) :=
  (locate path.bytes).bind (fun ts => walk Json.child ts d)

/-- The document with `v` in place of the node that a path designates. -/
def updated (locate : Bytes → Option (List Bytes)) (d : Json N) (path : Str) (v : Json N) :
    Option (Json N) :=
  (locate path.bytes).bind (fun ts => assign Json.child Json.put ts d v)

/-- One of the paths leads through the node of the other. -/
def Related (locate : Bytes → Option (List Bytes)) (p q : Str) : Prop :=
  ∃ ts us, locate p.bytes = some ts ∧ locate q.bytes = some us ∧ (ts <+: us ∨ us <+: ts)

theorem updated_eq_none (p : Str) (v : Json N) : updated locate d p v = none ↔ node locate d p = none := by
  rw [updated, node]
  cases locate p.bytes with
  | none => simp
  | some ts => exact assign_eq_none ts d v

theorem node_updated (h : updated locate d p v = some d') : node locate d' p = some v := by
  obtain ⟨ts, hts, h⟩ := Option.bind_eq_some_iff.mp h
  rw [node, hts, Option.bind_some]
  exact walk_assign Json.lawful h

theorem node_updated_other (h : updated locate d p v = some d') (hq : ¬ Related locate p q) :
    node locate d' q = node locate d q := by
  obtain ⟨ts, hts, h⟩ := Option.bind_eq_some_iff.mp h
  unfold node
  cases hus : locate q.bytes with
  | none => rfl
  | some us =>
      refine walk_assign_other Json.lawful h ?_ ?_
      · exact fun hp => hq ⟨ts, us, hts, hus, .inl hp⟩
      · exact fun hp => hq ⟨ts, us, hts, hus, .inr hp⟩

theorem node_root (h : isRoot p = true) : node pathTokens d p = some d := by
  rw [node, pathTokens_root h]
  rfl

theorem updated_root (h : isRoot p = true) : updated pathTokens d p v = some v := by
  rw [updated, pathTokens_root h]
  rfl

end Nodes

section Paths

variable {S N : Type} [SerdeJson (Json N)] {d d' v : Json N} {p : Str}

/-- The functions of serde_json on paths are those of RFC 6901. -/
structure ImplementsRfc (N : Type) [SerdeJson (Json N)] : Prop where
  pointer : ∀ (d : Json N) (path : Str),
    SerdeJson.pointer d path = (tokens path.bytes).bind (fun ts => walk Json.child ts d)
  assign : ∀ (d : Json N) (path : Str) (v : Json N),
    SerdeJson.assign d path v = (tokens path.bytes).bind (fun ts => assign Json.child Json.put ts d v)

theorem pointer_eq_node (rfc : ImplementsRfc N) (h : isRoot p = false) :
    SerdeJson.pointer d p = node pathTokens d p := by
  rw [node, pathTokens_inner h, rfc.pointer]

theorem assign_eq_updated (rfc : ImplementsRfc N) (h : isRoot p = false) :
    SerdeJson.assign d p v = updated pathTokens d p v := by
  rw [updated, pathTokens_inner h, rfc.assign]

variable [Host] [F64 S] {now : Nat} {db : Db (Value S (Json N))} {key value : Str}

def shown : Option (Json N) → Frame
  | some target => .bulk (jsonText target)
  | none => .null

/-- The key holds the document, in an entry that has not expired. -/
def Stored (now : Nat) (db : Db (Value S (Json N))) (key : Str) (d : Json N) : Prop :=
  ∃ entry size, db.entry key = some entry ∧ entry.data = .json d size ∧ entry.isExpired now = false

def jsonGet (rt : Zset.Runtime) (now : Nat) (db : Db (Value S (Json N))) (key path : Str) :
    Except KvError Frame :=
  (execute rt now db (.jsonGet ⟨key, path⟩ : Command S)).1.reply

def jsonSet (rt : Zset.Runtime) (now : Nat) (db : Db (Value S (Json N))) (key path value : Str) :
    Except KvError Frame × Db (Value S (Json N)) :=
  let (done, db) := execute rt now db (.jsonSet ⟨key, path, value⟩ : Command S)
  (done.reply, db)

/-- JSON.GET and JSON.SET on the document of a key, by the nodes that paths designate. -/
structure Follows (locate : Bytes → Option (List Bytes)) (rt : Zset.Runtime) (now : Nat)
    (db : Db (Value S (Json N))) (key : Str) (d : Json N) : Prop where
  get : ∀ p, jsonGet rt now db key p = .ok (shown (node locate d p))
  set : ∀ p value (v : Json N), SerdeJson.fromStr value = some v → node locate d p ≠ none →
    let r := jsonSet rt now db key p value
    r.1 = .ok okFrame ∧ ∃ d', updated locate d p v = some d' ∧
      ∀ now', Stored now' db key d → Stored now' r.2 key d' ∧
        jsonGet rt now' r.2 key p = .ok (shown (some v)) ∧
        ∀ q, ¬ Related locate p q → jsonGet rt now' r.2 key q = jsonGet rt now' db key q
  miss : ∀ p value (v : Json N), SerdeJson.fromStr value = some v → node locate d p = none →
    let r := jsonSet rt now db key p value
    (∃ e, r.1 = .error e) ∧ ∀ now', Stored now' db key d → Stored now' r.2 key d

theorem jsonGet_stored (rfc : ImplementsRfc N) (rt : Zset.Runtime) (h : Stored now db key d) (p : Str) :
    jsonGet rt now db key p = .ok (shown (node pathTokens d p)) := by
  obtain ⟨entry, size, hentry, hdata, hlive⟩ := h
  have hcell := (db.access_spec now key (jsonGetAccess ⟨key, p⟩ : Access S _)).1
  have hself : unlessExpired now (some entry) = some entry :=
    unlessExpired_eq_self (by rintro _ ⟨⟩; exact hlive)
  have hdone : (execute rt now db (.jsonGet ⟨key, p⟩ : Command S)).1 = _ := hcell
  rw [jsonGet, hdone, hentry]
  simp only [jsonGetAccess, Access.onCell, hself, hdata]
  cases hr : isRoot p with
  | true =>
      rw [node_root hr]
      rfl
  | false =>
      simp only [Bool.false_eq_true, if_false, pointer_eq_node rfc hr]
      cases node pathTokens d p <;> rfl

omit [F64 S] in
/-- The document of an entry after JSON.SET. -/
theorem jsonSetTaken_json (rfc : ImplementsRfc N) {entry : ValueEntry (Value S (Json N))} {size : UInt64}
    (h : entry.data = .json d size) :
    jsonSetTaken ⟨key, p, value⟩ v (some entry) =
      match updated pathTokens d p v with
      | some d' => jsonUpdate ⟨key, p, value⟩ entry d'
      | none => (.err "Path does not exist", .insert { entry with data := .json d 0 }) := by
  simp only [jsonSetTaken, h]
  cases hr : isRoot p with
  | true =>
      rw [updated_root hr]
      rfl
  | false =>
      simp only [Bool.false_eq_true, if_false, assign_eq_updated rfc hr]
      cases updated pathTokens d p v <;> rfl

theorem jsonSet_eq (rt : Zset.Runtime) (now : Nat) (db : Db (Value S (Json N))) (key p : Str)
    (hv : SerdeJson.fromStr value = some v) :
    (jsonSet rt now db key p value).1 = (jsonSetTaken (S := S) ⟨key, p, value⟩ v (db.entry key)).1.reply ∧
    (jsonSet rt now db key p value).2.entry key =
      (jsonSetTaken (S := S) ⟨key, p, value⟩ v (db.entry key)).2.result none := by
  have hset : execute rt now db (.jsonSet ⟨key, p, value⟩ : Command S) =
      db.access now key (.take (jsonSetTaken ⟨key, p, value⟩ v)) := by
    simp only [execute, executeJsonSet, hv]
    rfl
  obtain ⟨hdone, hentry⟩ := db.access_spec now key (.take (jsonSetTaken (S := S) ⟨key, p, value⟩ v))
  have hkey := hentry key
  rw [if_pos rfl] at hkey
  simp only [jsonSet, hset]
  exact ⟨congrArg Done.reply hdone, hkey⟩

/-- The entry keeps its deadline, whatever JSON.SET makes of its document. -/
theorem jsonSet_stored (rt : Zset.Runtime) (h : Stored now db key d)
    (hv : SerdeJson.fromStr value = some v) {done : Done S} {size' : UInt64}
    (htaken : ∀ (entry : ValueEntry (Value S (Json N))) size, entry.data = .json d size →
      jsonSetTaken ⟨key, p, value⟩ v (some entry) = (done, .insert { entry with data := .json d' size' })) :
    (jsonSet rt now db key p value).1 = done.reply ∧
    ∀ now', Stored now' db key d → Stored now' (jsonSet rt now db key p value).2 key d' := by
  obtain ⟨entry, size, hentry, hdata, -⟩ := h
  obtain ⟨hreply, hafter⟩ := jsonSet_eq rt now db key p hv
  rw [hentry, htaken entry size hdata] at hreply hafter
  refine ⟨hreply, fun now' hstored => ?_⟩
  obtain ⟨entry', -, hentry', -, hlive⟩ := hstored
  cases hentry.symm.trans hentry'
  exact ⟨_, _, hafter, rfl, hlive⟩

theorem jsonSet_found (rfc : ImplementsRfc N) (rt : Zset.Runtime) (h : Stored now db key d)
    (hv : SerdeJson.fromStr value = some v) (hd : updated pathTokens d p v = some d') :
    (jsonSet rt now db key p value).1 = .ok okFrame ∧
    ∀ now', Stored now' db key d → Stored now' (jsonSet rt now db key p value).2 key d' := by
  have htaken (entry : ValueEntry (Value S (Json N))) size (hdata : entry.data = .json d size) :
      jsonSetTaken ⟨key, p, value⟩ v (some entry) = jsonUpdate ⟨key, p, value⟩ entry d' := by
    rw [jsonSetTaken_json rfc hdata, hd]
  exact jsonSet_stored rt h hv htaken

theorem jsonSet_missed (rfc : ImplementsRfc N) (rt : Zset.Runtime) (h : Stored now db key d)
    (hv : SerdeJson.fromStr value = some v) (hd : updated pathTokens d p v = none) :
    (∃ e, (jsonSet rt now db key p value).1 = .error e) ∧
    ∀ now', Stored now' db key d → Stored now' (jsonSet rt now db key p value).2 key d := by
  have htaken (entry : ValueEntry (Value S (Json N))) size (hdata : entry.data = .json d size) :
      jsonSetTaken ⟨key, p, value⟩ v (some entry) =
        (.err "Path does not exist", .insert { entry with data := .json d 0 }) := by
    rw [jsonSetTaken_json rfc hdata, hd]
  obtain ⟨hreply, hafter⟩ := jsonSet_stored rt h hv htaken
  exact ⟨⟨_, hreply⟩, hafter⟩

/-- JSON.GET and JSON.SET take every path for the same node: / for the whole document, and any other
path for the node of RFC 6901. -/
theorem json_follows_paths (rfc : ImplementsRfc N) (rt : Zset.Runtime) (h : Stored now db key d) :
    Follows pathTokens rt now db key d where
  get := jsonGet_stored rfc rt h
  set p value v hv hnode := by
    obtain ⟨d', hd⟩ := Option.ne_none_iff_exists'.mp (mt (updated_eq_none p v).mp hnode)
    obtain ⟨hreply, hafter⟩ := jsonSet_found rfc rt h hv hd
    refine ⟨hreply, d', hd, fun now' hstored => ⟨hafter now' hstored, ?_, fun q hq => ?_⟩⟩
    · rw [jsonGet_stored rfc rt (hafter now' hstored), node_updated hd]
    · rw [jsonGet_stored rfc rt (hafter now' hstored), jsonGet_stored rfc rt hstored,
        node_updated_other hd hq]
  miss p value v hv hnode := jsonSet_missed rfc rt h hv ((updated_eq_none p v).mpr hnode)

end Paths

section Sample

local instance : Host := singleShard

local instance : F64 UInt64 := wholeScore

def nullText : Str := Str.ofAscii (ascii ['n', 'u', 'l', 'l']) (by decide)

/-- The text of an object that has null under the empty name. -/
def unnamedText : Str :=
  Str.ofAscii (ascii ['\x7b', '"', '"', ':', 'n', 'u', 'l', 'l', '\x7d']) (by decide)

@[reducible] def twoDocuments : SerdeJson (Json Unit) where
  fromStr s :=
    if s.bytes = nullText.bytes then some .null
    else if s.bytes = unnamedText.bytes then some (.object [([], .null)])
    else none
  toStr
    | .null => some nullText
    | .object [([], .null)] => some unnamedText
    | _ => none
  pointer d path := (tokens path.bytes).bind (fun ts => walk Json.child ts d)
  assign d path v := (tokens path.bytes).bind (fun ts => assign Json.child Json.put ts d v)

local instance : SerdeJson (Json Unit) := twoDocuments

theorem implementsRfc_twoDocuments : ImplementsRfc Unit := ⟨fun _ _ => rfl, fun _ _ _ => rfl⟩

def unnamed : Json Unit := .object [([], .null)]

def docKey : Str := Str.ofAscii (ascii ['k']) (by decide)

def unnamedDb : Db (Value UInt64 (Json Unit)) :=
  (jsonSet ⟨[], 0, 0⟩ 0 (Db.new .lru) docKey (Str.ofAscii [] (by decide)) unnamedText).2

theorem stored_unnamed (now : Nat) : Stored now unnamedDb docKey unnamed := by
  have hv : SerdeJson.fromStr unnamedText = some unnamed := rfl
  obtain ⟨-, hset⟩ := jsonSet_eq (S := UInt64) ⟨[], 0, 0⟩ 0 (Db.new .lru) docKey (Str.ofAscii [] (by decide)) hv
  rw [Db.entry_new] at hset
  exact ⟨_, _, hset, rfl, rfl⟩

/-- JSON.GET k / replies the document, and not its member with the empty name. -/
theorem slash_shows_document :
    ImplementsRfc Unit ∧ Stored 0 unnamedDb docKey unnamed ∧
    ¬ Follows tokens ⟨[], 0, 0⟩ 0 unnamedDb docKey unnamed := by
  refine ⟨implementsRfc_twoDocuments, stored_unnamed 0, fun h => ?_⟩
  have hget := h.get (Str.ofAscii (ascii ['/']) (by decide))
  rw [jsonGet_stored implementsRfc_twoDocuments _ (stored_unnamed 0)] at hget
  have hbytes : unnamedText.bytes = nullText.bytes := by injection hget with hget; injection hget
  exact absurd hbytes (by decide)

theorem unnamed_follows_paths :
    ImplementsRfc Unit ∧ Stored 0 unnamedDb docKey unnamed ∧
    Follows pathTokens ⟨[], 0, 0⟩ 0 unnamedDb docKey unnamed :=
  ⟨implementsRfc_twoDocuments, stored_unnamed 0,
    json_follows_paths implementsRfc_twoDocuments ⟨[], 0, 0⟩ (stored_unnamed 0)⟩

end Sample

end RustKv.Executor
