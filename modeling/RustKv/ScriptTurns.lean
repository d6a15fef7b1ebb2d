import RustKv.AtomicStore

namespace RustKv.Isolation

open Text Protocol Domain CommandParser CacheStore Zset RustKv.Types Executor Expiry Lua RwLocks Abstract Traces

section Keys

variable {S J : Type} [LinearOrder S] {P : S → Prop} {n n' : Nat} {clock clock' : List Nat}
  {e : Option (ValueEntry (Value S J))} {c : LuaCell (Value S J)} {x : Option (Item S J)}
  {y : Option (Option (Item S J))}

/-- What a script has for a key whose entry is `e`: nothing of its own, or an expired entry
that a lookup has removed, or a change. -/
inductive Holds (P : S → Prop) (n : Nat) (clock : List Nat) (e : Option (ValueEntry (Value S J))) :
    LuaCell (Value S J) → Option (Option (Item S J)) → Prop
  | free : Holds P n clock e ⟨none, e⟩ none
  | gone {time : Nat} (htime : time ∈ clock) (he : unlessExpired time e = none) :
      Holds P n clock e ⟨none, none⟩ (some none)
  | written {change : ChangeOp (Value S J)} {base : Option (ValueEntry (Value S J))} {x : Option (Item S J)}
      (hbase : base = e ∨ (base = none ∧ ∃ time ∈ clock, unlessExpired time e = none))
      (hx : Option.Rel (Depicts P n) (changeValue change) x) : Holds P n clock e ⟨some change, base⟩ (some x)

theorem Holds.mono (h : Holds P n clock e c y) (hn : n ≤ n') (hclock : clock ⊆ clock') :
    Holds P n' clock' e c y := by
  cases h with
  | free => exact .free
  | gone htime he => exact .gone (hclock htime) he
  | written hbase hx =>
      refine .written (hbase.imp_right (fun h => ⟨h.1, ?_⟩)) (depicts_mono hx hn)
      obtain ⟨time, htime, he⟩ := h.2
      exact ⟨time, hclock htime, he⟩

theorem Holds.base (h : Holds P n clock e c y) :
    c.base = e ∨ (c.base = none ∧ ∃ time ∈ clock, unlessExpired time e = none) := by
  cases h with
  | free => exact .inl rfl
  | gone htime he => exact .inr ⟨rfl, _, htime, he⟩
  | written hbase hx => exact hbase

theorem Holds.view (h : Holds P n clock e c y) (he : Option.Rel (Depicts P n) e x) (time : Nat) :
    Option.Rel (Depicts P n) (c.view time) (y.getD (live time x)) := by
  cases h with
  | free => exact depicts_live he time
  | gone => exact .none
  | written hbase hx => exact hx

theorem Holds.committed (h : Holds P n clock e c y) (he : Option.Rel (Depicts P n) e x) :
    Option.Rel (Depicts P n) c.committed (y.getD x) := by
  cases h with
  | free => exact he
  | gone => exact .none
  | written hbase hx => exact hx

end Keys

section Scripts

variable {S J : Type} [Host] [LinearOrder S] {P : S → Prop} {n n' : Nat} {keys : List Str}
  {clock clock' : List Nat} {cells cells' : Cells (Value S J)} {data data' : Keyspace S J} {held : Held S J}
  {o : Overlay (Value S J)}

/-- The overlay of a script, and what it has written. -/
structure Drafted (P : S → Prop) (n : Nat) (keys : List Str) (clock : List Nat) (cells : Cells (Value S J))
    (held : Held S J) (o : Overlay (Value S J)) : Prop where
  declared : ∀ i, o.declared i = decide (i ∈ shardIndices keys)
  outside : ∀ k, Host.shardIndex k ∉ shardIndices keys → held k = none
  inside : ∀ k, Host.shardIndex k ∈ shardIndices keys → Holds P n clock (cells k) (o.cells k) (held k)

theorem Drafted.mono (h : Drafted P n keys clock cells held o) (hn : n ≤ n') (hclock : clock ⊆ clock')
    (hcells : ∀ k, Host.shardIndex k ∈ shardIndices keys → cells' k = cells k) :
    Drafted P n' keys clock' cells' held o where
  declared := h.declared
  outside := h.outside
  inside k hk := by
    rw [hcells k hk]
    exact (h.inside k hk).mono hn hclock

theorem drafted_locked (P : S → Prop) (n : Nat) (keys : List Str) (clock : List Nat) (cells : Cells (Value S J)) :
    Drafted P n keys clock cells (fun _ => none) (lockedOverlay (shardIndices keys) cells) where
  declared _ := rfl
  outside _ _ := rfl
  inside k hk := by
    simp only [lockedOverlay, if_pos hk]
    exact .free

omit [LinearOrder S] in
theorem within_inside {k : Str} (hk : Host.shardIndex k ∈ shardIndices keys) (data : Keyspace S J) :
    within keys data k = data k := if_pos (List.contains_iff_mem.mpr hk)

omit [LinearOrder S] in
theorem within_congr (h : ∀ k, Host.shardIndex k ∈ shardIndices keys → data' k = data k) :
    within keys data' = within keys data := by
  funext k
  by_cases hk : Host.shardIndex k ∈ shardIndices keys
  · rw [within_inside hk, within_inside hk, h k hk]
  · have hnot : ¬ (shardIndices keys).contains (Host.shardIndex k) = true :=
      fun hc => hk (List.contains_iff_mem.mp hc)
    rw [within, within, if_neg hnot, if_neg hnot]

/-- The items of the keys that a script has not written. -/
def Held.rest (held : Held S J) (m : Keyspace S J) : Keyspace S J := fun k =>
  if (held k).isSome then none else m k

theorem Drafted.drafts (h : Drafted P n keys clock cells held o)
    (hcells : ∀ k, Option.Rel (Depicts P n) (cells k) (data k)) (now : Nat) :
    Drafts P keys now (fun k => (o.cells k).base) (held.rest (within keys data)) n o
      (held.view (within keys data) now) where
  declared := h.declared
  seen k hk := by
    have hview := (h.inside k hk).view (hcells k) now
    rw [← within_inside hk data] at hview
    exact hview
  unwritten k hchange := by
    simp only [Held.view, Held.rest]
    cases hheld : held k with
    | none => rfl
    | some x =>
        have hk : Host.shardIndex k ∈ shardIndices keys := by
          by_contra hnot
          rw [h.outside k hnot] at hheld
          cases hheld
        have hholds := h.inside k hk
        rw [hheld] at hholds
        generalize hcell : o.cells k = cell at hholds
        cases hholds with
        | gone => rfl
        | written =>
            have hnone := hchange hk
            rw [hcell] at hnone
            cases hnone
  below k _ := .inl rfl

omit [LinearOrder S] in
/-- A command takes back no change of a script. -/
theorem access_change {now : Nat} {key k : Str} {a : Access S (Value S J)}
    (h : ((Context.access o now key a).2.cells k).change = none) : (o.cells k).change = none := by
  simp only [Context.access] at h
  split at h
  · simp only [Function.update_apply] at h
    split at h
    · next he =>
        rw [he]
        rcases (LuaCell.run_view a now key (o.cells key)).2 with ⟨change, hchange, -⟩ | ⟨hnone, -, -⟩
        · rw [h] at hchange
          cases hchange
        · exact hnone
    · exact h
  · exact h

theorem grown_tracks (P : S → Prop) (keys : List Str) (now : Nat) (base : Cells (Value S J)) (m : Keyspace S J)
    (o : Overlay (Value S J)) :
    Tracks P (fun n (sessions : Sessions (Value S J)) d => ∃ o', Reflects sessions o' ∧
      Drafts P keys now base m n o' d ∧ ∀ k, (o'.cells k).change = none → (o.cells k).change = none)
      (refusal keys) 0 now where
  mono hn h := by
    obtain ⟨o', hr, hd, hgrown⟩ := h
    exact ⟨o', hr, hd.mono hn, hgrown⟩
  access key hn ha h := by
    obtain ⟨o', hr, hd, hgrown⟩ := h
    obtain ⟨hdone, hr'⟩ := Reflects.simulates now _ _ _ o' hr
    obtain ⟨hdone', hd'⟩ := hd.access hn ha key
    exact ⟨hdone.trans hdone', _, hr', hd', fun k hk => hgrown k (access_change hk)⟩

theorem Drafted.next (h : Drafted P n keys clock cells held o)
    (hcells : ∀ k, Option.Rel (Depicts P n) (cells k) (data k)) {now : Nat} (hnow : now ∈ clock)
    {o' : Overlay (Value S J)} {after : Keyspace S J}
    (hd : Drafts P keys now (fun k => (o.cells k).base) (held.rest (within keys data)) n' o' after)
    (hgrown : ∀ k, (o'.cells k).change = none → (o.cells k).change = none) :
    ∃ held' : Held S J, (∀ k, held' k = some (after k) ∨
        (held k = none ∧ held' k = none ∧ after k = held.view (within keys data) now k)) ∧
      Drafted P n' keys clock cells held' o' := by
  have hkey (k : Str) : ∃ y, (y = some (after k) ∨
      (held k = none ∧ y = none ∧ after k = held.view (within keys data) now k)) ∧
      (Host.shardIndex k ∉ shardIndices keys → y = none) ∧
      (Host.shardIndex k ∈ shardIndices keys → Holds P n' clock (cells k) (o'.cells k) y) := by
    by_cases hk : Host.shardIndex k ∈ shardIndices keys
    · have hbelow := hd.below k hk
      have hseen := hd.seen k hk
      have hfree := hd.unwritten k
      have hholds := h.inside k hk
      have hold := hgrown k
      generalize hcell' : o'.cells k = cell' at hbelow hseen hfree hold ⊢
      obtain ⟨change, base⟩ := cell'
      cases change with
      | some change =>
          refine ⟨some (after k), .inl rfl, fun hnot => absurd hk hnot, fun _ => .written ?_ hseen⟩
          rcases hholds.base with hbase | ⟨hbase, hexpired⟩
          · rw [hbase] at hbelow
            exact hbelow.imp_right (fun h => ⟨h.1, now, hnow, h.2⟩)
          · rw [hbase] at hbelow
            exact .inr ⟨hbelow.elim id And.left, hexpired⟩
      | none =>
          -- the script has not written the key, so it has what it had or has lost what was over
          have hafter := hfree (fun _ => rfl)
          have hchange := hold rfl
          generalize hcell : o.cells k = cell at hbelow hholds hchange
          generalize hheld : held k = z at hholds
          cases hholds with
          | free =>
              rw [Held.rest, hheld, Option.isSome_none, if_neg Bool.false_ne_true] at hafter
              rcases hbelow with hbase | ⟨hbase, hexpired⟩
              · simp only at hbase
                rw [hbase]
                refine ⟨none, .inr ⟨rfl, rfl, ?_⟩, fun _ => rfl, fun _ => .free⟩
                rw [Held.view, hheld, hafter]
                rfl
              · simp only at hbase hexpired
                rw [within_inside hk] at hafter
                rw [hbase]
                have hgone : after k = none := by rw [hafter, live_none (hcells k) hexpired]
                exact ⟨some none, .inl (by rw [hgone]), fun hnot => absurd hk hnot, fun _ => .gone hnow hexpired⟩
          | gone htime hexpired =>
              rw [Held.rest, hheld, Option.isSome_some, if_pos rfl] at hafter
              have hbase : base = none := hbelow.elim id And.left
              rw [hbase]
              exact ⟨some none, .inl (by rw [hafter]; rfl), fun hnot => absurd hk hnot, fun _ => .gone htime hexpired⟩
          | written => cases hchange
    · have hheld := h.outside k hk
      have hafter := hd.unwritten k (fun hin => absurd hin hk)
      rw [Held.rest, hheld, Option.isSome_none, if_neg Bool.false_ne_true] at hafter
      refine ⟨none, .inr ⟨hheld, rfl, ?_⟩, fun _ => rfl, fun hin => absurd hin hk⟩
      rw [Held.view, hheld, hafter]
      rfl
  choose held' hrule houtside hinside using hkey
  exact ⟨held', hrule, hd.declared, houtside, hinside⟩

theorem Drafted.call [F64 S] [SerdeJson J] (h : Drafted P n keys clock cells held o) (cmp : Compares P)
    (hcells : ∀ k, Option.Rel (Depicts P n) (cells k) (data k))
    {env : CurrentRequestEnv (Sessions (Value S J)) S} (hr : Reflects env.sessions o) (moment : Moment)
    (hmoment : moment.now ∈ clock) {c : Call} (next : Except LuaError Frame → Script)
    (hc : ∀ command ∈ (tryFrom (S := S) (.array (c.args.map .bulk))).toOption, Regular P command)
    (hn : n < 2 ^ 63) :
    ∃ held' o', Turn (within keys data) keys clock (.call c next, held) (next (redisCall moment env c).1, held') ∧
      Reflects (redisCall moment env c).2.sessions o' ∧ Drafted P (n + 1) keys clock cells held' o' := by
  obtain ⟨hresult, -, o', hr', hd, hgrown⟩ := (grown_tracks P keys moment.now
    (fun k => (o.cells k).base) (held.rest (within keys data)) o).redisCall cmp rfl hc hn
    ⟨o, hr, h.drafts hcells moment.now, fun _ hk => hk⟩
  have hlen : (tryFrom (S := S) (.array (c.args.map .bulk))).toOption.toList.length ≤ 1 := by
    cases (tryFrom (S := S) (.array (c.args.map .bulk))).toOption <;> simp
  obtain ⟨held', hheld, hd'⟩ := h.next hcells hmoment (hd.mono (Nat.add_le_add_left hlen n)) hgrown
  refine ⟨held', o', ?_, hr', hd'⟩
  rw [hresult]
  exact .call hmoment rfl hheld

end Scripts

end RustKv.Isolation
