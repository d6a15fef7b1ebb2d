import Mathlib.Algebra.Order.Group.Multiset
import RustKv.Waiting

namespace RustKv.Clients

open Text Protocol Domain CacheStore Zset RustKv.Types Executor AofEncoder

section Items

variable {S J : Type} [Host]

/-- The elements of the list under a key, as LPOP replies with them. -/
def items (e : Option (ValueEntry (Value S J))) : Multiset Bytes :=
  match logicalOf e with
  | some (.list xs) => ↑(xs.map Element.reply)
  | _ => 0

/-- A list, or nothing, and no expiration: no command gives one to a list. -/
def PlainList (e : Option (ValueEntry (Value S J))) : Prop :=
  ∀ x, e = some x → x.expiresAt = none ∧ ∃ xs, logical x.data = .list xs

/-- What the reply of a command brings from the list of the key. -/
def received (k : Str) : Command S → Except KvError Frame → Multiset Bytes
  | .lpop c, .ok (.bulk item) => if c.key = k then {item} else 0
  | .blpop c, .ok (.array [.bulk _, .bulk item]) => if c.key = k then {item} else 0
  | _, _ => 0

/-- What a command gives to the list of the key. -/
def given (k : Str) : Command S → Multiset Bytes
  | .lpush c => if c.key = k then ↑c.values else 0
  | _ => 0

variable {e : Option (ValueEntry (Value S J))}

omit [Host] in
theorem PlainList.cases (h : PlainList e) : e = none ∨ ∃ deque a b n, e = some ⟨.list deque a b, none, n⟩ := by
  rcases e with _ | ⟨v, x, n⟩
  · exact .inl rfl
  · obtain ⟨hx, xs, hv⟩ := h _ rfl
    cases v with
    | list deque a b =>
        obtain rfl : x = none := hx
        exact .inr ⟨deque, a, b, n, rfl⟩
    | simple | hash | zset | json => cases hv

omit [Host] in
theorem plainList_none : PlainList (none : Option (ValueEntry (Value S J))) := by rintro x ⟨⟩

omit [Host] in
theorem plainList_list (deque : List Element) (a b : UInt64) (n : UInt64) :
    PlainList (some (⟨.list deque a b, none, n⟩ : ValueEntry (Value S J))) := by
  rintro x ⟨⟩
  exact ⟨rfl, deque, rfl⟩

theorem popRest_plain (deque : List Element) (a b : UInt64) :
    PlainList ((popRest (S := S) (J := J) deque a b none).result none) ∧
      items ((popRest (S := S) (J := J) deque a b none).result none) = ↑(deque.map Element.reply) := by
  unfold popRest
  split
  · next hnil =>
      rw [hnil]
      exact ⟨plainList_none, rfl⟩
  · exact ⟨plainList_list deque a b _, rfl⟩

theorem lpop_items (h : PlainList e) (now : Nat) (c : LPopCommand) :
    PlainList ((Access.take (lpopTaken c) : Access S _).onCell now e).2 ∧
      items e = received c.key (Command.lpop (S := S) c)
          ((Access.take (lpopTaken c) : Access S (Value S J)).onCell now e).1.reply +
        items ((Access.take (lpopTaken c) : Access S _).onCell now e).2 := by
  obtain rfl | ⟨deque, a, b, n, rfl⟩ := h.cases
  · exact ⟨plainList_none, rfl⟩
  · cases deque with
    | nil => exact ⟨plainList_none, rfl⟩
    | cons item deque =>
        obtain ⟨hplain, hitems⟩ := popRest_plain (S := S) (J := J) deque a (b - item.heapSize)
        refine ⟨hplain, ?_⟩
        simp only [Access.onCell, lpopTaken, Done.logged, received, if_true, hitems]
        rfl

theorem blpop_items (h : PlainList e) (now : Nat) (c : BLPopCommand) :
    PlainList ((Access.take (blpopTaken c) : Access S _).onCell now e).2 ∧
      items e = received c.key (Command.blpop (S := S) c)
          ((Access.take (blpopTaken c) : Access S (Value S J)).onCell now e).1.reply +
        items ((Access.take (blpopTaken c) : Access S _).onCell now e).2 := by
  obtain rfl | ⟨deque, a, b, n, rfl⟩ := h.cases
  · exact ⟨plainList_none, rfl⟩
  · cases deque with
    | nil => exact ⟨plainList_list [] a b _, rfl⟩
    | cons item deque =>
        obtain ⟨hplain, hitems⟩ := popRest_plain (S := S) (J := J) deque a (b - item.heapSize)
        refine ⟨hplain, ?_⟩
        simp only [Access.onCell, blpopTaken, Done.logged, received, if_true, hitems]
        rfl

omit [Host] in
theorem pushAll_items (values : List Bytes) (deque : List Element) (n : UInt64) :
    (↑((pushAll deque n values).1.map Element.reply) : Multiset Bytes) =
      ↑values + ↑(deque.map Element.reply) := by
  induction values generalizing deque n with
  | nil => simp [pushAll]
  | cons item values ih =>
      rw [pushAll, ih]
      simp [Element.reply]

theorem lpush_items (h : PlainList e) (now : Nat) (rt : Runtime) (c : LPushCommand) (values : List Bytes) :
    PlainList ((lpushAccess rt c values : Access S _).onCell now e).2 ∧
      items ((lpushAccess rt c values : Access S _).onCell now e).2 = ↑values + items e := by
  by_cases hv : values = []
  · have hself : unlessExpired now e = e := by
      refine unlessExpired_eq_self (fun x hx => ?_)
      rw [ValueEntry.isExpired, (h x hx).1]
    subst hv
    simp only [lpushAccess, if_true, Access.onCell, PutBack.result, hself]
    exact ⟨h, by simp⟩
  · simp only [lpushAccess, hv, if_false, Access.onCell]
    obtain rfl | ⟨deque, a, b, n, rfl⟩ := h.cases
    · refine ⟨plainList_list _ _ _ _, ?_⟩
      exact pushAll_items values [] 0
    · refine ⟨plainList_list _ _ _ _, ?_⟩
      exact pushAll_items values deque b

end Items

section Machines

variable {I S J : Type} [Host] {m m' : Machine I S J} {i : I} {x : Client S J} {k : Str}

/-- The client has the receiver of a ticket, or will wait for it next. -/
inductive Client.Owns (n : Nat) (c : BLPopCommand) : Client S J → Prop
  | waiting : Owns n c (.waiting c n)
  | elapsed : Owns n c (.elapsed c n)
  | awaiting (t : Task S J) (hn : t.ticket = n) (hawait : .await c ∈ t.code)
      (hregister : .register c ∉ t.code) : Owns n c (.running t)

def Instr.Acts : Instr S J → Prop
  | .access _ _ | .check _ | .register _ | .await _ => True
  | _ => False

/-- Every ticket is for one key, and the receiver of a ticket that is not closed has a
client that will take what is sent. -/
structure Posted (k : Str) (m : Machine I S J) : Prop where
  lists : ∀ i t, m.clients i = .running t → t.Lists
  early : ∀ i t, m.clients i = .running t → ∀ y ∈ t.code, y.Acts → t.done.reply = .ok .null
  plain : PlainList (m.db.entry k)
  queues : ∀ key, ∀ n ∈ m.queues key, n < m.tickets ∧ m.channelKeys n = key
  owns : ∀ i n c, (m.clients i).Owns n c → n < m.tickets ∧ m.channelKeys n = c.key
  owned : ∀ n, m.channels n ≠ .closed → ∃ i c, (m.clients i).Owns n c
  elapsed : ∀ i c n, m.clients i = .elapsed c n → ∀ item, m.channels n ≠ .full item

variable [DecidableEq I]

theorem Posted.update (h : Posted k m) (hclients : m'.clients = Function.update m.clients i x)
    (hlists : ∀ t, x = .running t → t.Lists ∧ ∀ y ∈ t.code, y.Acts → t.done.reply = .ok .null)
    (hplain : PlainList (m'.db.entry k)) (htickets : m.tickets ≤ m'.tickets)
    (hkeys : ∀ n, n < m.tickets → m'.channelKeys n = m.channelKeys n)
    (hqueues : ∀ key, ∀ n ∈ m'.queues key, n < m'.tickets ∧ m'.channelKeys n = key)
    (hx : ∀ n c, x.Owns n c → n < m'.tickets ∧ m'.channelKeys n = c.key)
    (howned : ∀ n, m'.channels n ≠ .closed → (∃ c, x.Owns n c) ∨ ∃ j c, j ≠ i ∧ (m.clients j).Owns n c)
    (helapsed : ∀ j c n, m'.clients j = .elapsed c n → ∀ item, m'.channels n ≠ .full item) :
    Posted k m' := by
  refine ⟨running_update h.lists hclients (fun t ht => (hlists t ht).1),
    running_update h.early hclients (fun t ht => (hlists t ht).2), hplain, hqueues, ?_, ?_, helapsed⟩
  · intro j n c hj
    rw [hclients, Function.update_apply] at hj
    split at hj
    · exact hx n c hj
    · obtain ⟨hn, hkey⟩ := h.owns j n c hj
      exact ⟨hn.trans_le htickets, (hkeys n hn).trans hkey⟩
  · intro n hn
    rcases howned n hn with ⟨c, hc⟩ | ⟨j, c, hj, hc⟩
    · refine ⟨i, c, ?_⟩
      rw [hclients, Function.update_self]
      exact hc
    · refine ⟨j, c, ?_⟩
      rw [hclients, Function.update_of_ne hj]
      exact hc

theorem Posted.keep (h : Posted k m) (hclients : m'.clients = Function.update m.clients i x)
    (hlists : ∀ t, x = .running t → t.Lists ∧ ∀ y ∈ t.code, y.Acts → t.done.reply = .ok .null)
    (hplain : PlainList (m'.db.entry k)) (htickets : m'.tickets = m.tickets)
    (hkeys : m'.channelKeys = m.channelKeys) (hqueues : ∀ key, ∀ n ∈ m'.queues key, n ∈ m.queues key)
    (hx : ∀ n c, x.Owns n c ↔ (m.clients i).Owns n c)
    (hchannels : ∀ n, m'.channels n ≠ .closed → m.channels n ≠ .closed)
    (helapsed : ∀ j c n, m'.clients j = .elapsed c n → ∀ item, m'.channels n ≠ .full item) :
    Posted k m' := by
  refine h.update hclients hlists hplain htickets.ge (fun n _ => by rw [hkeys]) (fun key n hn => ?_)
    (fun n c hc => ?_) (fun n hn => ?_) helapsed
  · rw [htickets, hkeys]
    exact h.queues key n (hqueues key n hn)
  · rw [htickets, hkeys]
    exact h.owns i n c ((hx n c).mp hc)
  · obtain ⟨j, c, hc⟩ := h.owned n (hchannels n hn)
    by_cases hj : j = i
    · subst hj
      exact .inl ⟨c, (hx n c).mpr hc⟩
    · exact .inr ⟨j, c, hj, hc⟩

theorem Posted.elapsed_update (h : Posted k m) (hclients : m'.clients = Function.update m.clients i x)
    (hx : ∀ c n, x ≠ .elapsed c n) (hchannels : ∀ n item, m'.channels n = .full item → m.channels n = .full item) :
    ∀ j c n, m'.clients j = .elapsed c n → ∀ item, m'.channels n ≠ .full item := by
  intro j c n hj item hn
  rw [hclients, Function.update_apply] at hj
  split at hj
  · exact hx c n hj
  · exact h.elapsed j c n hj item (hchannels n item hn)

theorem Posted.go (h : Posted k m) {t t' : Task S J} {y : Instr S J} {code : List (Instr S J)}
    (ht : m.clients i = .running t) (hc : t.code = y :: code)
    (hclients : m'.clients = Function.update m.clients i (.running t')) (hcommand : t'.command = t.command)
    (hcode : t'.code = code) (hticket : t'.ticket = t.ticket) (hy : ∀ c, y ≠ .register c ∧ y ≠ .await c)
    (hearly : ∀ z ∈ code, z.Acts → t'.done.reply = .ok .null) (hplain : PlainList (m'.db.entry k))
    (htickets : m'.tickets = m.tickets) (hkeys : m'.channelKeys = m.channelKeys)
    (hqueues : ∀ key, ∀ n ∈ m'.queues key, n ∈ m.queues key)
    (hchannels : ∀ n, m'.channels n ≠ .closed → m.channels n ≠ .closed)
    (helapsed : ∀ j c n, m'.clients j = .elapsed c n → ∀ item, m'.channels n ≠ .full item) :
    Posted k m' := by
  refine h.keep hclients ?_ hplain htickets hkeys hqueues (fun n c => ?_) hchannels helapsed
  · rintro u ⟨⟩
    refine ⟨(h.lists i t ht).tail hcommand ?_, by rwa [hcode]⟩
    rw [hc, hcode]
    exact List.suffix_cons _ _
  · have hawait : .await c ∈ t.code ↔ .await c ∈ t'.code := by
      rw [hc, hcode, List.mem_cons, or_iff_right (hy c).2.symm]
    have hregister : .register c ∈ t.code ↔ .register c ∈ t'.code := by
      rw [hc, hcode, List.mem_cons, or_iff_right (hy c).1.symm]
    rw [ht]
    constructor
    · rintro (_ | _ | ⟨_, hn, ha, hr⟩)
      exact .awaiting t (hticket ▸ hn) (hawait.mpr ha) (fun hmem => hr (hregister.mp hmem))
    · rintro (_ | _ | ⟨_, hn, ha, hr⟩)
      exact .awaiting t' (hticket.trans hn) (hawait.mp ha) (fun hmem => hr (hregister.mpr hmem))

omit [DecidableEq I] in
theorem plainList_access {key : Str} {a : Access S (Value S J)} (h : PlainList (m.db.entry k))
    (hdb : m'.db = (m.db.access m.now key a).2)
    (ha : key = k → PlainList (a.onCell m.now (m.db.entry k)).2) : PlainList (m'.db.entry k) := by
  rw [hdb, (m.db.access_spec m.now key a).2]
  split
  · next hk => rw [← hk]; exact ha hk.symm
  · exact h

variable [F64 S] [SerdeJson J]

/-- Steps of list commands in which no item is sent to a client that has given up and
still has its receiver. -/
def Caught (m : Machine I S J) : Label I S → Prop
  | .start _ c => OnList c
  | .go i => ∀ t key item code n queue, m.clients i = .running t → t.code = .offer key item :: code →
      m.queues key = n :: queue → ∀ j c, m.clients j ≠ .elapsed c n
  | .receive _ | .elapse _ | .drop _ | .tick _ => True
  | _ => False

omit [F64 S] [SerdeJson J] in
theorem Posted.check (h : Posted k m) {t : Task S J} {c : BLPopCommand} {code : List (Instr S J)}
    (ht : m.clients i = .running t) (hc : t.code = .check c :: code) :
    Posted k (m.accessed i t
      (if (m.db.access m.now c.key (.take (blpopTaken c) : Access S _)).1.waits then waitCode c else code)
      c.key (.take (blpopTaken c))) := by
  have hcode := (h.lists i t ht).after_check hc
  have hcommand := ((h.lists i t ht).check (by rw [hc]; exact List.mem_cons_self)).1
  have hplain (code' : List (Instr S J)) :
      PlainList ((m.accessed i t code' c.key (.take (blpopTaken c))).db.entry k) :=
    plainList_access h.plain rfl (fun _ => (blpop_items h.plain m.now c).1)
  cases hw : (m.db.access m.now c.key (.take (blpopTaken c) : Access S _)).1.waits with
  | false =>
      refine h.go ht hc rfl rfl rfl rfl (by simp) ?_ (hplain _) rfl rfl (fun _ _ hn => hn) (fun _ hn => hn)
        (h.elapsed_update rfl (by rintro c n ⟨⟩) (fun _ _ hn => hn))
      simp [hcode, Instr.Acts]
  | true =>
      refine h.keep rfl ?_ (hplain _) rfl rfl (fun _ _ hn => hn) (fun n c' => ?_) (fun _ hn => hn)
        (h.elapsed_update rfl (by rintro c n ⟨⟩) (fun _ _ hn => hn))
      · rintro u ⟨⟩
        refine ⟨.wait c hcommand (List.suffix_refl _), fun _ _ _ => ?_⟩
        have hspec := (m.db.access_spec m.now c.key (.take (blpopTaken c) : Access S _)).1
        rw [hspec] at hw
        change (m.db.access m.now c.key (.take (blpopTaken c) : Access S _)).1.reply = _
        rw [hspec, (blpop_waits hw).1]
        rfl
      · rw [ht]
        constructor
        · rintro (_ | _ | ⟨_, -, ha, hr⟩)
          obtain rfl : c' = c := by simpa [waitCode] using ha
          exact absurd (by simp [waitCode]) hr
        · rintro (_ | _ | ⟨_, -, ha, -⟩)
          rw [hc, hcode] at ha
          simp at ha

omit [F64 S] [SerdeJson J] in
theorem Posted.register (h : Posted k m) {t : Task S J} {c : BLPopCommand} {code : List (Instr S J)}
    (ht : m.clients i = .running t) (hc : t.code = .register c :: code) :
    Posted k { m.run i { t with ticket := m.tickets } code with
      queues := Function.update m.queues c.key (m.queues c.key ++ [m.tickets])
      channels := Function.update m.channels m.tickets .pending
      channelKeys := Function.update m.channelKeys m.tickets c.key
      tickets := m.tickets + 1 } := by
  have hcode := (h.lists i t ht).after_register hc
  have hkeys (n : Nat) (hn : n < m.tickets) :
      Function.update m.channelKeys m.tickets c.key n = m.channelKeys n := Function.update_of_ne hn.ne _ _
  have hnot (n : Nat) (c' : BLPopCommand) : ¬ (m.clients i).Owns n c' := by
    rw [ht]
    rintro (_ | _ | ⟨_, -, ha, hr⟩)
    obtain rfl : c' = c := by simpa [hc, hcode] using ha
    exact hr (by rw [hc]; exact List.mem_cons_self)
  refine h.update rfl ?_ h.plain (Nat.le_succ _) hkeys (fun key n hn => ?_) (fun n c' hx => ?_) (fun n hn => ?_) ?_
  · rintro u ⟨⟩
    refine ⟨(h.lists i t ht).tail rfl (by rw [hc]; exact List.suffix_cons _ _), fun _ _ _ => ?_⟩
    exact h.early i t ht (.register c) (by rw [hc]; exact List.mem_cons_self) trivial
  · change n < m.tickets + 1 ∧ Function.update m.channelKeys m.tickets c.key n = key
    change n ∈ Function.update m.queues c.key (m.queues c.key ++ [m.tickets]) key at hn
    have hold (hn : n ∈ m.queues key) :
        n < m.tickets + 1 ∧ Function.update m.channelKeys m.tickets c.key n = key := by
      obtain ⟨hlt, hkey⟩ := h.queues key n hn
      exact ⟨Nat.lt_succ_of_lt hlt, (hkeys n hlt).trans hkey⟩
    rw [Function.update_apply] at hn
    split at hn
    · next heq =>
        rcases List.mem_append.mp hn with hn | hn
        · exact hold (heq ▸ hn)
        · rw [List.mem_singleton.mp hn, Function.update_self]
          exact ⟨Nat.lt_succ_self _, heq.symm⟩
    · exact hold hn
  · rcases hx with _ | _ | ⟨_, rfl, ha, -⟩
    obtain rfl : c' = c := by simpa [hcode] using ha
    exact ⟨Nat.lt_succ_self _, Function.update_self ..⟩
  · change Function.update m.channels m.tickets .pending n ≠ .closed at hn
    by_cases heq : n = m.tickets
    · subst heq
      exact .inl ⟨c, .awaiting _ rfl (by simp [hcode]) (by simp [hcode])⟩
    · rw [Function.update_of_ne heq] at hn
      obtain ⟨j, c', hj⟩ := h.owned n hn
      refine .inr ⟨j, c', ?_, hj⟩
      rintro rfl
      exact hnot n c' hj
  · refine h.elapsed_update rfl (by rintro c n ⟨⟩) (fun n item hn => ?_)
    change Function.update m.channels m.tickets .pending n = _ at hn
    rw [Function.update_apply] at hn
    split at hn
    · cases hn
    · exact hn

omit [Host] [DecidableEq I] [F64 S] [SerdeJson J] in
theorem code_after_push {rt : Runtime} {c : LPushCommand} {code : List (Instr S J)}
    (h : .push rt c :: code <:+ lpushCode rt c) : code = [.unlockShard c.key, .sendAof] := by
  obtain ⟨before, h⟩ := h
  have hcode : lpushCode (S := S) (J := J) rt c =
      (.lockQueues :: c.values.map (.offer c.key) ++ [.unlockQueues, .lockShard c.key]) ++
        .push rt c :: [.unlockShard c.key, .sendAof] := by
    simp [lpushCode, pushCode]
  rw [hcode] at h
  exact ((List.append_cons_inj_of_notMem (by simp) (by simp)).mp h.symm).2.2.symm

omit [DecidableEq I] [F64 S] [SerdeJson J] in
theorem Posted.early_tail (h : Posted k m) {t : Task S J} {y : Instr S J} {code : List (Instr S J)}
    (ht : m.clients i = .running t) (hc : t.code = y :: code) :
    ∀ z ∈ code, z.Acts → t.done.reply = .ok .null := by
  intro z hz
  refine h.early i t ht z ?_
  rw [hc]
  exact List.mem_cons_of_mem y hz

omit [F64 S] [SerdeJson J] in
theorem Posted.offerSent (h : Posted k m) {t : Task S J} {key : Str} {item : Bytes} {code : List (Instr S J)}
    {n : Nat} {queue : List Nat} (ht : m.clients i = .running t) (hc : t.code = .offer key item :: code)
    (hq : m.queues key = n :: queue) (hn : m.channels n = .pending)
    (hcaught : ∀ j c, m.clients j ≠ .elapsed c n) :
    Posted k { m.run i t code with
      queues := Function.update m.queues key queue
      channels := Function.update m.channels n (.full item) } := by
  have hbefore := h.early_tail ht hc
  refine h.go ht hc rfl rfl rfl rfl (by simp) hbefore h.plain rfl rfl
    (fun _ _ hn => mem_pop hq hn) (fun n' hn' => ?_) (fun j c n' hj item' hn' => ?_)
  · change Function.update m.channels n (.full item) n' ≠ .closed at hn'
    rw [Function.update_apply] at hn'
    split at hn'
    · next heq =>
        rw [heq, hn]
        rintro ⟨⟩
    · exact hn'
  · have hj' : m.clients j = .elapsed c n' := by
      change Function.update m.clients i _ j = _ at hj
      rw [Function.update_apply] at hj
      split at hj
      · cases hj
      · exact hj
    change Function.update m.channels n (.full item) n' = _ at hn'
    rw [Function.update_apply] at hn'
    split at hn'
    · next heq =>
        rw [heq] at hj'
        exact hcaught j c hj'
    · exact h.elapsed j c n' hj' item' hn'

omit [F64 S] [SerdeJson J] in
theorem Posted.close (h : Posted k m) {n : Nat} (hi : ∀ n' c, (m.clients i).Owns n' c → n' = n)
    (hclients : m'.clients = Function.update m.clients i x)
    (hlists : ∀ t, x = .running t → t.Lists ∧ ∀ y ∈ t.code, y.Acts → t.done.reply = .ok .null)
    (hdb : m'.db = m.db) (htickets : m'.tickets = m.tickets) (hkeys : m'.channelKeys = m.channelKeys)
    (hqueues : m'.queues = m.queues) (hx : ∀ n' c, ¬ x.Owns n' c)
    (hchannels : m'.channels = Function.update m.channels n .closed) : Posted k m' := by
  refine h.update hclients hlists (by rw [hdb]; exact h.plain) htickets.ge (fun _ _ => by rw [hkeys]) ?_
    (fun n' c hc => absurd hc (hx n' c)) (fun n' hn' => ?_)
    (h.elapsed_update hclients (fun c n' hc => hx n' c (hc ▸ .elapsed)) (fun n' item hn' => ?_))
  · rw [hqueues, htickets, hkeys]
    exact h.queues
  · rw [hchannels, Function.update_apply] at hn'
    split at hn'
    · exact absurd rfl hn'
    · next hne =>
        obtain ⟨j, c, hj⟩ := h.owned n' hn'
        refine .inr ⟨j, c, ?_, hj⟩
        rintro rfl
        exact hne (hi n' c hj)
  · rw [hchannels, Function.update_apply] at hn'
    split at hn'
    · cases hn'
    · exact hn'

theorem Posted.step (h : Posted k m) {l : Label I S} (hl : Caught m l) (hs : Step m l m') :
    Posted k m' := by
  cases hs with
  | start hidle hp =>
      obtain ⟨hreply, hawait⟩ := program_before hl hp
      refine h.keep rfl ?_ h.plain rfl rfl (fun _ _ hn => hn) (fun n c => ?_) (fun _ hn => hn)
        (h.elapsed_update rfl (by rintro c n ⟨⟩) (fun _ _ hn => hn))
      · rintro u ⟨⟩
        exact ⟨program_lists hl hp, fun _ _ _ => hreply⟩
      · rw [hidle]
        constructor
        · rintro (_ | _ | ⟨_, -, ha, -⟩)
          exact absurd ha (hawait c)
        · rintro ⟨⟩
  | lockShard ht hc | unlockShard ht hc | sendAof ht hc | lockQueues ht hc | unlockQueues ht hc
  | offerNone ht hc =>
      have hbefore := h.early_tail ht hc
      exact h.go ht hc rfl rfl rfl rfl (by simp) hbefore h.plain rfl rfl (fun _ _ hn => hn)
        (fun _ hn => hn) (h.elapsed_update rfl (by rintro c n ⟨⟩) (fun _ _ hn => hn))
  | access ht hc =>
      have hcode := (h.lists _ _ ht).after_access hc
      obtain ⟨c, -, rfl, rfl⟩ := (h.lists _ _ ht).access (by rw [hc]; exact List.mem_cons_self)
      refine h.go ht hc rfl rfl rfl rfl (by simp) ?_
        (plainList_access h.plain rfl (fun _ => (lpop_items h.plain m.now c).1)) rfl rfl (fun _ _ hn => hn)
        (fun _ hn => hn) (h.elapsed_update rfl (by rintro c n ⟨⟩) (fun _ _ hn => hn))
      simp [hcode, Instr.Acts]
  | push ht hc =>
      have hs := ((h.lists _ _ ht).push (by rw [hc]; exact List.mem_cons_self)).2
      rw [hc] at hs
      refine h.go ht hc rfl rfl rfl rfl (by simp) ?_
        (plainList_access h.plain rfl (fun _ => (lpush_items h.plain m.now _ _ _).1)) rfl rfl (fun _ _ hn => hn)
        (fun _ hn => hn) (h.elapsed_update rfl (by rintro c n ⟨⟩) (fun _ _ hn => hn))
      simp [code_after_push hs, Instr.Acts]
  | check ht hc => exact h.check ht hc
  | offerSent ht hc hq hn => exact h.offerSent ht hc hq hn (hl _ _ _ _ _ _ ht hc hq)
  | offerGone ht hc hq hn =>
      exact ⟨h.lists, h.early, h.plain, fun key n hn => h.queues key n (mem_pop hq hn), h.owns, h.owned, h.elapsed⟩
  | register ht hc => exact h.register ht hc
  | @await i t c code ht hc =>
      have hcode := (h.lists i t ht).after_await hc
      refine h.keep rfl (by rintro u ⟨⟩) h.plain rfl rfl (fun _ _ hn => hn) (fun n c' => ?_) (fun _ hn => hn)
        (h.elapsed_update rfl (by rintro c n ⟨⟩) (fun _ _ hn => hn))
      rw [ht]
      constructor
      · rintro ⟨⟩
        exact .awaiting t rfl (by rw [hc]; exact List.mem_cons_self) (by simp [hc, hcode])
      · rintro (_ | _ | ⟨_, rfl, ha, -⟩)
        obtain rfl : c' = c := by simpa [hc, hcode] using ha
        exact .waiting
  | finish ht hc =>
      refine h.keep rfl (by rintro u ⟨⟩) h.plain rfl rfl (fun _ _ hn => hn) (fun n c => ?_) (fun _ hn => hn)
        (h.elapsed_update rfl (by rintro c n ⟨⟩) (fun _ _ hn => hn))
      rw [ht]
      constructor
      · rintro ⟨⟩
      · rintro (_ | _ | ⟨_, -, ha, -⟩)
        rw [hc] at ha
        cases ha
  | @receive i c n item ht hn =>
      refine h.close (n := n) ?_ rfl ?_ rfl rfl rfl rfl ?_ rfl
      · rw [ht]
        rintro n' c' ⟨⟩
        rfl
      · rintro u ⟨⟩
        exact ⟨.blpop c rfl ⟨[_, _, _], rfl⟩, by simp [Instr.Acts]⟩
      · rintro n' c' (_ | _ | ⟨_, -, ha, -⟩)
        simp at ha
  | @elapse i c n ht hn htimeout =>
      refine h.keep rfl (by rintro u ⟨⟩) h.plain rfl rfl (fun _ _ hn => hn) (fun n' c' => ?_) (fun _ hn => hn) ?_
      · rw [ht]
        constructor
        · rintro ⟨⟩
          exact .waiting
        · rintro ⟨⟩
          exact .elapsed
      · intro j c' n' hj item hfull'
        change Function.update m.clients i _ j = _ at hj
        rw [Function.update_apply] at hj
        split at hj
        · cases hj
          cases hn.symm.trans hfull'
        · exact h.elapsed j c' n' hj item hfull'
  | @drop i c n ht =>
      refine h.close (n := n) ?_ rfl (by rintro u ⟨⟩) rfl rfl rfl rfl (by rintro n' c' ⟨⟩) rfl
      rw [ht]
      rintro n' c' ⟨⟩
      rfl
  | tick => exact ⟨h.lists, h.early, h.plain, h.queues, h.owns, h.owned, h.elapsed⟩
  | eval | lockScript | call | succeed | fail | commit | release | endScript => exact hl.elim

end Machines

end RustKv.Clients
