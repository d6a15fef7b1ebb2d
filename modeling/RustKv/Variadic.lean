import RustKv.ExpiredKeys
import RustKv.RequestReading

namespace RustKv.Variadic

open Text Decimal Protocol Domain CommandParser RequestReading CacheStore Zset RustKv.Types Executor Expiry

section Loops

/-- A frame that extract_bulk_string accepts. -/
def IsString (f : Frame) : Prop := ∃ s : Str, f = .bulk s.bytes

def stringFrames (ss : List Str) : List Frame := ss.map (fun s => .bulk s.bytes)

theorem extractBulkString_error {f : Frame} (h : ¬ IsString f) : ∃ e, extractBulkString (some f) = .error e := by
  cases hf : extractBulkString (some f) with
  | error e => exact ⟨e, rfl⟩
  | ok s => exact absurd ⟨s, Option.some.inj (extractBulkString_iff.mp hf)⟩ h

theorem not_isString_of_error {f : Frame} {e : KvError} (h : extractBulkString (some f) = .error e) :
    ¬ IsString f := by
  rintro ⟨s, rfl⟩
  rw [extractBulkString_bytes] at h
  cases h

/-- What a loop over the arguments leaves unread begins with no string. -/
def Stopped (rest : List Frame) : Prop := ∀ f, rest.head? = some f → ¬ IsString f

theorem stopped_nil : Stopped [] := by
  rintro f ⟨⟩

theorem stopped_cons {f : Frame} {rest : List Frame} (h : ¬ IsString f) : Stopped (f :: rest) := by
  rintro g ⟨⟩
  exact h

theorem parseKeys_stopped {rest : List Frame} (h : Stopped rest) : parseKeys rest = [] := by
  cases rest with
  | nil => rfl
  | cons f rest =>
      obtain ⟨e, he⟩ := extractBulkString_error (h f rfl)
      simp only [parseKeys, he]

theorem parseKeys_append (keys : List Str) {rest : List Frame} (h : Stopped rest) :
    parseKeys (stringFrames keys ++ rest) = keys := by
  induction keys with
  | nil => exact parseKeys_stopped h
  | cons key keys ih =>
      change parseKeys (.bulk key.bytes :: (stringFrames keys ++ rest)) = key :: keys
      rw [parseKeys, extractBulkString_bytes, ih]

/-- The loop of MGET reads the strings at the front. -/
theorem parseKeys_split (iter : List Frame) :
    ∃ rest, iter = stringFrames (parseKeys iter) ++ rest ∧ Stopped rest := by
  induction iter with
  | nil => exact ⟨[], rfl, stopped_nil⟩
  | cons f iter ih =>
      cases hf : extractBulkString (some f) with
      | error e => exact ⟨f :: iter, by simp only [parseKeys, hf]; rfl, stopped_cons (not_isString_of_error hf)⟩
      | ok key =>
          obtain ⟨rest, hrest, hstop⟩ := ih
          obtain rfl := Option.some.inj (extractBulkString_iff.mp hf)
          refine ⟨rest, ?_, hstop⟩
          simp only [parseKeys, hf]
          exact congrArg (Frame.bulk key.bytes :: ·) hrest

theorem parsePairs_append (pairs : List (Str × Bytes)) {rest : List Frame} (h : Stopped rest) :
    parsePairs (pairFrames pairs ++ rest) = .ok pairs := by
  induction pairs with
  | nil =>
      cases rest with
      | nil => rfl
      | cons f rest =>
          obtain ⟨e, he⟩ := extractBulkString_error (h f rfl)
          change parsePairs (f :: rest) = _
          rw [parsePairs.eq_def]
          simp only [he]
  | cons p pairs ih =>
      change parsePairs (.bulk p.1.bytes :: .bulk p.2 :: (pairFrames pairs ++ rest)) = _
      rw [parsePairs, extractBulkString_bytes]
      simp only [extractBulkBytes_iff.mpr rfl, ih]
      rfl

/-- The loop of MSET reads the pairs at the front, each with a string for its key. -/
theorem parsePairs_split {iter : List Frame} {pairs : List (Str × Bytes)} (h : parsePairs iter = .ok pairs) :
    ∃ rest, iter = pairFrames pairs ++ rest ∧ Stopped rest := by
  induction iter using parsePairs.induct generalizing pairs with
  | case1 =>
      rw [parsePairs] at h
      cases h
      exact ⟨[], rfl, stopped_nil⟩
  | case2 f fs e he =>
      rw [parsePairs.eq_def] at h
      simp only [he] at h
      cases h
      exact ⟨f :: fs, rfl, stopped_cons (not_isString_of_error he)⟩
  | case3 f key hk => simp [parsePairs, hk, protocolError] at h
  | case4 f key hk g fs e he => simp [parsePairs, hk, he, protocolError] at h
  | case5 f key hk g fs v hv ih =>
      simp only [parsePairs, hk, hv, bind_ok, pure, Except.pure, Except.ok.injEq] at h
      obtain ⟨qs, hq, rfl⟩ := h
      obtain rfl := Option.some.inj (extractBulkString_iff.mp hk)
      obtain rfl := Option.some.inj (extractBulkBytes_iff.mp hv)
      obtain ⟨rest, hrest, hstop⟩ := ih hq
      exact ⟨rest, congrArg (fun fs => Frame.bulk key.bytes :: Frame.bulk v :: fs) hrest, hstop⟩

theorem parseEvalKeys_ok {n : Nat} {iter rest : List Frame} {keys : List Str}
    (h : parseEvalKeys n iter = .ok (keys, rest)) : keys.length = n ∧ iter = stringFrames keys ++ rest := by
  induction n generalizing iter keys with
  | zero =>
      rw [parseEvalKeys] at h
      cases h
      exact ⟨rfl, rfl⟩
  | succ n ih =>
      cases iter with
      | nil => cases h
      | cons f iter =>
          simp only [parseEvalKeys, bind_ok, pure, Except.pure, Except.ok.injEq, Prod.exists,
            Prod.mk.injEq] at h
          obtain ⟨key, hk, keys', rest', hkeys, rfl, rfl⟩ := h
          obtain rfl := Option.some.inj (extractBulkString_iff.mp hk)
          obtain ⟨hlen, hiter⟩ := ih hkeys
          exact ⟨congrArg (· + 1) hlen, congrArg (Frame.bulk key.bytes :: ·) hiter⟩

end Loops

section Requests

/-- The commands with a variable number of arguments. -/
inductive Kind
  | mset
  | mget
  | lpush
  | hset
  | hdel
  | eval
  deriving DecidableEq, Repr

def Kind.name : Kind → Bytes
  | .mset => ascii ['M', 'S', 'E', 'T']
  | .mget => ascii ['M', 'G', 'E', 'T']
  | .lpush => ascii ['L', 'P', 'U', 'S', 'H']
  | .hset => ascii ['H', 'S', 'E', 'T']
  | .hdel => ascii ['H', 'D', 'E', 'L']
  | .eval => ascii ['E', 'V', 'A', 'L']

variable {S J : Type} [Host]

def Names (kind : Kind) (frames : List Frame) : Prop :=
  ∃ (s : Str) (iter : List Frame), frames = .bulk s.bytes :: iter ∧ (Host.toUppercase s).bytes = kind.name

/-- The arity check and the parser of the command. -/
def Kind.parse (iter : List Frame) : Kind → Except KvError (Command S)
  | .mset => guardArity (iter.length + 1 < 3 || (iter.length + 1) % 2 = 0) "MSET 命令参数错误" (parseMSet iter)
  | .mget => guardArity (iter.length + 1 < 2) "MGET 命令至少需要 1 个参数" (parseMGet iter)
  | .lpush => guardArity (iter.length + 1 < 3) "LPUSH 命令需要至少 2 个参数" (parseLPush iter)
  | .hset => guardArity (iter.length + 1 < 4 || (iter.length + 1) % 2 ≠ 0) "HSET 命令参数错误" (parseHSet iter)
  | .hdel => guardArity (iter.length + 1 < 3) "HDEL 命令需要至少 2 个参数" (parseHDel iter)
  | .eval => parseEval iter

theorem tryFrom_kind [F64 S] {kind : Kind} {s : Str} (iter : List Frame)
    (h : (Host.toUppercase s).bytes = kind.name) :
    tryFrom (S := S) (.array (.bulk s.bytes :: iter)) = kind.parse iter := by
  simp only [tryFrom, fromUtf8_bytes]
  rw [dispatch]
  rw [h]
  cases kind <;> simp +decide only [Kind.parse, ↓reduceIte]

variable [F64 S] [SerdeJson J]

/-- The command has all the arguments of the request, each from the frame at its place.
MGET then replies as many elements as it was asked for. -/
def Complete (J : Type) [SerdeJson J] (frames : List Frame) : Command S → Prop
  | .mset c => c.keysAndValues.length = (frames.length - 1) / 2 ∧ frames.tail = pairFrames c.keysAndValues
  | .mget c => c.keys.length = frames.length - 1 ∧ frames.tail = stringFrames c.keys ∧
      ∀ (rt : Runtime) (now : Nat) (db : Db (Value S J)), ∃ replies,
        (execute rt now db (.mget c : Command S)).1.reply = .ok (.array replies) ∧
          replies.length = frames.length - 1
  | .lpush c => c.values.length = frames.length - 2 ∧ frames.tail = .bulk c.key.bytes :: c.values.map .bulk
  | .hset c => c.fieldValues.length = (frames.length - 2) / 2 ∧
      frames.tail = .bulk c.key.bytes :: pairFrames c.fieldValues
  | .hdel c => c.fields.length = frames.length - 2 ∧ frames.tail = .bulk c.key.bytes :: stringFrames c.fields
  | .eval c => ∃ (numkeys : Nat) (text : Str), parseUsize text.bytes = .ok numkeys ∧
      3 + numkeys ≤ frames.length ∧ c.keys.length = numkeys ∧ c.args.length = frames.length - 3 - numkeys ∧
      frames.tail = .bulk c.script.bytes :: .bulk text.bytes :: (stringFrames c.keys ++ stringFrames c.args)
  | _ => False

/-- After one key at least, or one pair, there stands something else than a string where
the next key should be. -/
def Cut : Kind → List Frame → Prop
  | .mset, frames => frames.length % 2 = 1 ∧ ∃ pairs f rest, pairs ≠ [] ∧
      frames.tail = pairFrames pairs ++ f :: rest ∧ ¬ IsString f
  | .mget, frames => ∃ keys f rest, keys ≠ [] ∧ frames.tail = stringFrames keys ++ f :: rest ∧ ¬ IsString f
  | _, _ => False

variable {iter : List Frame} {first : Frame}

theorem mget_reply (rt : Runtime) (now : Nat) (db : Db (Value S J)) (c : MGetCommand) :
    ∃ replies, (execute rt now db (.mget c : Command S)).1.reply = .ok (.array replies) ∧
      replies.length = c.keys.length := by
  refine ⟨c.keys.map (fun k => stringReply (unlessExpired now (db.entry k))), ?_, List.length_map _⟩
  rw [(db.execute_entry rt now (.mget c)).1]
  change (mgetAll (S := S) now db.entry c.keys).1.map Frame.array = _
  rw [mgetAll_reply]
  rfl

theorem mset_complete_iff :
    (∀ c : Command S, Kind.mset.parse iter = .ok c → Complete J (first :: iter) c) ↔
      ¬ Cut .mset (first :: iter) := by
  constructor
  · rintro h ⟨hodd, pairs, f, rest, hne, htail, hf⟩
    have hlen : iter.length = pairs.length * 2 + (rest.length + 1) := by
      rw [show iter = _ from htail, List.length_append, pairFrames_length, List.length_cons]
    have hodd' : (iter.length + 1) % 2 = 1 := hodd
    have hpos := List.length_pos_iff.mpr hne
    have hok : Kind.mset.parse iter = .ok (.mset ⟨pairs⟩ : Command S) := by
      rw [Kind.parse, guardArity_pass (by
        simp only [Bool.or_eq_false_iff, decide_eq_false_iff_not]
        omega)]
      rw [show iter = _ from htail, parseMSet, parsePairs_append pairs (stopped_cons hf)]
      simp only [bind, Except.bind, List.isEmpty_iff, hne, if_false]
      rfl
    have hcount : pairs.length = iter.length / 2 := (h _ hok).1
    omega
  · intro hcut c hc
    obtain ⟨harity, hparse⟩ := guardArity_ok hc
    simp only [Bool.or_eq_false_iff, decide_eq_false_iff_not] at harity
    simp only [parseMSet, bind_ok] at hparse
    obtain ⟨pairs, hpairs, hparse⟩ := hparse
    split at hparse
    · cases hparse
    · next hne =>
      cases hparse
      obtain ⟨rest, hrest, hstop⟩ := parsePairs_split hpairs
      cases rest with
      | nil =>
          rw [List.append_nil] at hrest
          refine ⟨?_, hrest⟩
          change pairs.length = iter.length / 2
          rw [hrest, pairFrames_length]
          omega
      | cons f rest =>
          refine absurd ⟨?_, pairs, f, rest, by simpa using hne, hrest, hstop f rfl⟩ hcut
          change (iter.length + 1) % 2 = 1
          omega

theorem mget_complete_iff :
    (∀ c : Command S, Kind.mget.parse iter = .ok c → Complete J (first :: iter) c) ↔
      ¬ Cut .mget (first :: iter) := by
  constructor
  · rintro h ⟨keys, f, rest, hne, htail, hf⟩
    have hiter : iter = stringFrames keys ++ f :: rest := htail
    have hlen : iter.length = keys.length + (rest.length + 1) := by
      rw [hiter, List.length_append, stringFrames, List.length_map, List.length_cons]
    have hok : Kind.mget.parse iter = .ok (.mget ⟨keys⟩ : Command S) := by
      rw [Kind.parse, guardArity_pass (by
        simp only [decide_eq_false_iff_not]
        omega)]
      simp only [parseMGet, hiter, parseKeys_append keys (stopped_cons hf), List.isEmpty_iff, hne, if_false]
    have hcount : keys.length = iter.length := (h _ hok).1
    omega
  · intro hcut c hc
    obtain ⟨-, hparse⟩ := guardArity_ok hc
    simp only [parseMGet] at hparse
    split at hparse
    · cases hparse
    · next hne =>
      cases hparse
      obtain ⟨rest, hrest, hstop⟩ := parseKeys_split iter
      cases rest with
      | nil =>
          rw [List.append_nil] at hrest
          have hlen : (parseKeys iter).length = iter.length := by
            conv_rhs => rw [hrest, stringFrames, List.length_map]
          refine ⟨hlen, hrest, fun rt now db => ?_⟩
          obtain ⟨replies, hreply, hcount⟩ := mget_reply rt now db ⟨parseKeys iter⟩
          exact ⟨replies, hreply, hcount.trans hlen⟩
      | cons f rest =>
          exact absurd ⟨parseKeys iter, f, rest, by simpa using hne, hrest, hstop f rfl⟩ hcut

theorem lpush_complete {c : Command S} (h : Kind.lpush.parse iter = .ok c) : Complete J (first :: iter) c := by
  obtain ⟨-, hparse⟩ := guardArity_ok h
  simp only [parseLPush, bind_ok, extractBulkString_iff, extractAllBytes_iff, pure, Except.pure,
    Except.ok.injEq] at hparse
  obtain ⟨key, hk, values, hv, rfl⟩ := hparse
  have hi := head?_eq hk
  rw [hv] at hi
  refine ⟨?_, hi⟩
  change values.length = iter.length - 1
  rw [hi, List.length_cons, List.length_map, Nat.add_sub_cancel]

theorem hset_complete {c : Command S} (h : Kind.hset.parse iter = .ok c) : Complete J (first :: iter) c := by
  obtain ⟨-, hparse⟩ := guardArity_ok h
  simp only [parseHSet, bind_ok, extractBulkString_iff, parseFieldValues_iff, pure, Except.pure,
    Except.ok.injEq] at hparse
  obtain ⟨key, hk, pairs, hv, rfl⟩ := hparse
  have hi := head?_eq hk
  rw [hv] at hi
  refine ⟨?_, hi⟩
  change pairs.length = (iter.length - 1) / 2
  rw [hi, List.length_cons, pairFrames_length]
  omega

theorem hdel_complete {c : Command S} (h : Kind.hdel.parse iter = .ok c) : Complete J (first :: iter) c := by
  obtain ⟨-, hparse⟩ := guardArity_ok h
  simp only [parseHDel, bind_ok, extractBulkString_iff, extractAllStrings_iff, pure, Except.pure,
    Except.ok.injEq] at hparse
  obtain ⟨key, hk, fields, hv, rfl⟩ := hparse
  have hi := head?_eq hk
  rw [hv] at hi
  refine ⟨?_, hi⟩
  change fields.length = iter.length - 1
  rw [hi, List.length_cons, List.length_map, Nat.add_sub_cancel]

theorem eval_complete {c : Command S} (h : Kind.eval.parse iter = .ok c) : Complete J (first :: iter) c := by
  simp only [Kind.parse, parseEval, bind_ok, extractBulkString_iff] at h
  obtain ⟨script, hscript, text, htext, h⟩ := h
  split at h
  · cases h
  · next numkeys hnumkeys =>
    simp only [bind_ok, extractAllStrings_iff, pure, Except.pure, Except.ok.injEq, Prod.exists] at h
    obtain ⟨keys, rest, hkeys, args, hargs, rfl⟩ := h
    obtain ⟨hlen, hiter⟩ := parseEvalKeys_ok hkeys
    have hi := head?_eq hscript
    rw [head?_eq htext, hiter, hargs] at hi
    have hcount : iter.length = 2 + numkeys + args.length := by
      rw [hi]
      simp only [List.length_cons, List.length_append, stringFrames, List.length_map, hlen]
      omega
    refine ⟨numkeys, text, hnumkeys, ?_, hlen, ?_, hi⟩
    · rw [List.length_cons]
      omega
    · change args.length = iter.length + 1 - 3 - numkeys
      omega

/-- A variadic command that is accepted has all the arguments of its request, unless an MSET
or an MGET comes to a key that is no string after it has read a first one. -/
theorem arguments_kept_iff {kind : Kind} {frames : List Frame} (h : Names kind frames) :
    (∀ c : Command S, tryFrom (.array frames) = .ok c → Complete J frames c) ↔ ¬ Cut kind frames := by
  obtain ⟨s, iter, rfl, hname⟩ := h
  rw [tryFrom_kind iter hname]
  cases kind with
  | mset => exact mset_complete_iff
  | mget => exact mget_complete_iff
  | lpush => exact iff_of_true (fun _ hc => lpush_complete hc) id
  | hset => exact iff_of_true (fun _ hc => hset_complete hc) id
  | hdel => exact iff_of_true (fun _ hc => hdel_complete hc) id
  | eval => exact iff_of_true (fun _ hc => eval_complete hc) id

end Requests

section Sample

attribute [local instance] singleShard wholeScore flatJson

/-- MGET k followed by a key that is not UTF-8. -/
def mgetCut : List Frame := [.bulk (ascii ['M', 'G', 'E', 'T']), .bulk (ascii ['k']), .bulk [0xFF]]

theorem mgetCut_names : Names .mget mgetCut :=
  ⟨Str.ofAscii (ascii ['M', 'G', 'E', 'T']) (by decide), _, rfl, by decide⟩

/-- The command has one key of two. -/
theorem mget_drops_key : Names .mget mgetCut ∧
    ∃ c : Command UInt64, tryFrom (.array mgetCut) = .ok c ∧ ¬ Complete Str mgetCut c := by
  refine ⟨mgetCut_names, .mget ⟨[Str.ofAscii (ascii ['k']) ascii_k]⟩, rfl, ?_⟩
  rintro ⟨hcount, -⟩
  cases hcount

/-- MGET k k. -/
def mgetTwo : List Frame := [.bulk (ascii ['M', 'G', 'E', 'T']), .bulk (ascii ['k']), .bulk (ascii ['k'])]

theorem mget_keeps_keys : Names .mget mgetTwo ∧
    ∀ c : Command UInt64, tryFrom (.array mgetTwo) = .ok c → Complete Str mgetTwo c := by
  have hnames : Names .mget mgetTwo :=
    ⟨Str.ofAscii (ascii ['M', 'G', 'E', 'T']) (by decide), _, rfl, by decide⟩
  refine ⟨hnames, (arguments_kept_iff hnames).mpr ?_⟩
  rintro ⟨keys, f, rest, -, htail, hf⟩
  have hmem : f ∈ mgetTwo.tail := by
    rw [htail]
    exact List.mem_append_right _ List.mem_cons_self
  apply hf
  simp only [mgetTwo, List.tail_cons, List.mem_cons, List.not_mem_nil, or_false, or_self] at hmem
  exact ⟨Str.ofAscii (ascii ['k']) ascii_k, hmem⟩

end Sample

end RustKv.Variadic
