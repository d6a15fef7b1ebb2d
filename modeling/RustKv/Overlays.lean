import RustKv.Cells

namespace RustKv.Executor

open Text Protocol Domain CacheStore Zset RustKv.Types

variable {S J D : Type} {now : Nat}

def changeValue : ChangeOp D → Option (ValueEntry D)
  | .update value => some value
  | .delete => none

/-- What a script has for one key: its own change, and the entry below it. -/
structure LuaCell (D : Type) where
  change : Option (ChangeOp D)
  base : Option (ValueEntry D)

namespace LuaCell

def select (now : Nat) (c : LuaCell D) : Option (ValueEntry D) × LuaCell D :=
  match c.change with
  | some change => (changeValue change, c)
  | none => (unlessExpired now c.base, { c with base := unlessExpired now c.base })

def insert (now : Nat) (c : LuaCell D) (value : ValueEntry D) : LuaCell D :=
  { (c.select now).2 with change := some (.update value) }

def take (now : Nat) (c : LuaCell D) : Option (ValueEntry D) × LuaCell D :=
  match c.change with
  | some change => (changeValue change, { c with change := some .delete })
  | none =>
      match unlessExpired now c.base with
      | some value => (some value, ⟨some .delete, some value⟩)
      | none => (none, ⟨none, none⟩)

def delete (now : Nat) (c : LuaCell D) : LuaCell D :=
  { (c.select now).2 with change := some .delete }

instance : KvOperator (LuaCell D) D where
  insert c now _ := c.insert now
  select c now _ := c.select now
  take c now _ := c.take now
  delete c now _ := c.delete now

/-- What the script sees. -/
def view (now : Nat) (c : LuaCell D) : Option (ValueEntry D) := (c.select now).1

/-- What the shard holds when the script has committed. -/
def committed (c : LuaCell D) : Option (ValueEntry D) :=
  match c.change with
  | some change => changeValue change
  | none => c.base

theorem putBack_cases (put : PutBack D) (now : Nat) (key : Str) (c : LuaCell D) :
    put = .nothing ∨ ∃ change, (put.run now key c).change = some change ∧
      ∀ e, changeValue change = put.result e := by
  cases put with
  | nothing => exact .inl rfl
  | insert value => exact .inr ⟨_, rfl, fun _ => rfl⟩
  | delete => exact .inr ⟨_, rfl, fun _ => rfl⟩

/-- What a command leaves at a key: a change of the script, or what was there but
for an expired entry. -/
def Leaves (now : Nat) (c c' : LuaCell D) (e : Option (ValueEntry D)) : Prop :=
  (∃ change, c'.change = some change ∧ changeValue change = e) ∨
    (c.change = none ∧ c' = (c.select now).2 ∧ e = c.view now)

theorem select_leaves (now : Nat) (c : LuaCell D) : Leaves now c (c.select now).2 (c.view now) := by
  obtain ⟨change, base⟩ := c
  cases change with
  | some change => exact .inl ⟨change, rfl, rfl⟩
  | none => exact .inr ⟨rfl, rfl, rfl⟩

/-- A command in a script does to what the script sees what it does to an entry
when nothing expires. -/
theorem run_view (a : Access S D) (now : Nat) (key : Str) (c : LuaCell D) :
    (a.run now key c).1 = (a.onCell 0 (c.view now)).1 ∧
      Leaves now c (a.run now key c).2 (a.onCell 0 (c.view now)).2 := by
  cases a with
  | take f =>
      have htake : (c.take now).1 = c.view now ∧ Leaves now c (c.take now).2 none := by
        obtain ⟨change, base⟩ := c
        cases change with
        | some change => exact ⟨rfl, .inl ⟨_, rfl, rfl⟩⟩
        | none =>
            cases hb : unlessExpired now base with
            | some value => simp [take, view, select, hb, Leaves, changeValue]
            | none => simp [take, view, select, hb, Leaves]
      have hrun : (Access.take f).run now key c =
          ((f (c.take now).1).1, (f (c.take now).1).2.run now key (c.take now).2) := rfl
      rw [hrun, htake.1]
      refine ⟨rfl, ?_⟩
      rcases putBack_cases (f (c.view now)).2 now key (c.take now).2 with hp | ⟨change, hc, hv⟩
      · simp only [Access.onCell, hp]
        exact htake.2
      · exact .inl ⟨change, hc, hv none⟩
  | select f =>
      have hrun : (Access.select f).run now key c =
          ((f (c.view now)).1, (f (c.view now)).2.run now key (c.select now).2) := rfl
      simp only [Access.onCell, unlessExpired_zero, hrun]
      refine ⟨trivial, ?_⟩
      rcases putBack_cases (f (c.view now)).2 now key (c.select now).2 with hp | ⟨change, hc, hv⟩
      · rw [hp]
        exact select_leaves now c
      · exact .inl ⟨change, hc, hv _⟩
  | insert value done => exact ⟨rfl, .inl ⟨_, rfl, rfl⟩⟩
  | read f =>
      simp only [Access.onCell, unlessExpired_zero]
      exact ⟨rfl, select_leaves now c⟩

variable {c : LuaCell D}

/-- A script that finds nothing expired leaves alone what is below its changes. -/
theorem select_base (h : unlessExpired now c.base = c.base) : (c.select now).2.base = c.base := by
  obtain ⟨change, base⟩ := c
  cases change with
  | some change => rfl
  | none => exact h

theorem take_base (h : unlessExpired now c.base = c.base) : (c.take now).2.base = c.base := by
  obtain ⟨change, base⟩ := c
  have hbase : unlessExpired now base = base := h
  cases change with
  | some change => rfl
  | none =>
      cases base with
      | none => rfl
      | some value => simp only [LuaCell.take, hbase]

theorem putBack_base (h : unlessExpired now c.base = c.base) (put : PutBack D) (key : Str) :
    (put.run now key c).base = c.base := by
  cases put with
  | nothing => rfl
  | insert value => exact select_base h
  | delete => exact select_base h

theorem run_base (h : unlessExpired now c.base = c.base) (a : Access S D) (key : Str) :
    (a.run now key c).2.base = c.base := by
  cases a with
  | take f =>
      have hbase := take_base h
      exact (putBack_base (hbase.symm ▸ h) _ key).trans hbase
  | select f =>
      have hbase := select_base h
      exact (putBack_base (hbase.symm ▸ h) _ key).trans hbase
  | insert value done => exact putBack_base h (.insert value) key
  | read f => exact select_base h

theorem view_committed (h : unlessExpired now c.base = c.base) : c.view now = c.committed := by
  obtain ⟨change, base⟩ := c
  cases change with
  | some change => rfl
  | none => exact h

/-- Then a command does to what the script would commit what it does to an entry. -/
theorem run_committed (h : unlessExpired now c.base = c.base) (a : Access S D) (key : Str) :
    (a.run now key c).1 = (a.onCell 0 c.committed).1 ∧
      (a.run now key c).2.committed = (a.onCell 0 c.committed).2 := by
  obtain ⟨hdone, hleaves⟩ := LuaCell.run_view a now key c
  rw [view_committed h] at hdone hleaves
  refine ⟨hdone, ?_⟩
  rcases hleaves with ⟨change, hchange, hvalue⟩ | ⟨hnone, hcell, hvalue⟩
  · rw [← hvalue, LuaCell.committed, hchange]
  · rw [hvalue, hcell, view_committed h]
    obtain ⟨change, base⟩ := c
    cases hnone
    exact h

end LuaCell

/-- The script holds its shard through a write lock. -/
def Writes (node : LuaCacheNode D) : Prop := ∃ g, node.dbStore = .writeguard g

def nodeCell (node : LuaCacheNode D) (k : Str) : LuaCell D :=
  ⟨node.differMap.lookup k, node.dbStore.store.lookup k⟩

theorem nodeCell_differ (node : LuaCacheNode D) (change : ChangeOp D) (n : Int64) (key : Str) :
    nodeCell ⟨node.dbStore, node.differMap.insert key change, n⟩ =
      Function.update (nodeCell node) key { nodeCell node key with change := some change } := by
  funext k
  by_cases hk : k = key
  · subst hk
    simp [nodeCell, Finmap.lookup_insert]
  · simp [nodeCell, Finmap.lookup_insert_of_ne _ hk, Function.update_of_ne hk]

variable {node : LuaCacheNode D}

theorem select_cell (h : Writes node) (now : Nat) (key : Str) :
    (node.select now key).1 = ((nodeCell node key).select now).1 ∧
      Writes (node.select now key).2 ∧
      nodeCell (node.select now key).2 =
        Function.update (nodeCell node) key ((nodeCell node key).select now).2 := by
  cases hd : node.differMap.lookup key with
  | some change =>
      cases change <;> simp [LuaCacheNode.select, LuaCell.select, nodeCell, hd, changeValue, h]
  | none =>
      obtain ⟨g, hg⟩ := h
      obtain ⟨g', hsel, hlookup⟩ := select_writeguard g now key
      have hnode : node.select now key = (live now g.shard.dbStore key,
          { node with dbStore := .writeguard g' }) := by
        simp only [LuaCacheNode.select, hd, hg, hsel]
      have hcell : nodeCell node key = ⟨none, g.shard.dbStore.lookup key⟩ := by
        rw [nodeCell, hd, hg]
        rfl
      rw [hnode, hcell]
      refine ⟨rfl, ⟨g', rfl⟩, funext (fun k => ?_)⟩
      have hstore : (nodeCell { node with dbStore := .writeguard g' } k) =
          ⟨node.differMap.lookup k, g'.shard.dbStore.lookup k⟩ := rfl
      rw [hstore, hlookup, Function.update_apply]
      split
      · next hk => rw [hk, hd]; rfl
      · rw [nodeCell, hg]; rfl

theorem insert_cell (h : Writes node) (now : Nat) (key : Str) (value : ValueEntry D) :
    Writes (node.insert now key value) ∧ nodeCell (node.insert now key value) =
      Function.update (nodeCell node) key ((nodeCell node key).insert now value) := by
  obtain ⟨-, hw, hcell⟩ := select_cell h now key
  refine ⟨hw, ?_⟩
  refine (nodeCell_differ (node.select now key).2 (.update value) _ key).trans ?_
  rw [hcell, Function.update_self, Function.update_idem]
  rfl

theorem delete_cell (h : Writes node) (now : Nat) (key : Str) :
    Writes (node.delete now key) ∧ nodeCell (node.delete now key) =
      Function.update (nodeCell node) key ((nodeCell node key).delete now) := by
  obtain ⟨-, hw, hcell⟩ := select_cell h now key
  refine ⟨hw, ?_⟩
  refine (nodeCell_differ (node.select now key).2 .delete _ key).trans ?_
  rw [hcell, Function.update_self, Function.update_idem]
  rfl

theorem take_cell (h : Writes node) (now : Nat) (key : Str) :
    (node.take now key).1 = ((nodeCell node key).take now).1 ∧
      Writes (node.take now key).2 ∧
      nodeCell (node.take now key).2 =
        Function.update (nodeCell node) key ((nodeCell node key).take now).2 := by
  cases hd : node.differMap.lookup key with
  | some change =>
      have hcell : (nodeCell node key).change = some change := hd
      cases change with
      | update value | delete =>
          simp only [LuaCacheNode.take, hd, LuaCell.take, hcell]
          exact ⟨rfl, h, nodeCell_differ node .delete _ key⟩
  | none =>
      obtain ⟨hval, hw, hcell⟩ := select_cell h now key
      have hchange : (nodeCell node key).change = none := hd
      have hsel : node.select now key = ((node.dbStore.select now key).1,
          { node with dbStore := (node.dbStore.select now key).2 }) := by
        simp [LuaCacheNode.select, hd]
      rw [hsel] at hval hw hcell
      simp only [LuaCell.select, hchange] at hval hcell
      simp only [LuaCacheNode.take, hd, LuaCell.take, hchange]
      cases hs : node.dbStore.select now key with
      | mk value dbStore =>
          rw [hs] at hval hw hcell
          rw [← hval] at hcell ⊢
          cases value with
          | some value =>
              refine ⟨rfl, hw, ?_⟩
              refine (nodeCell_differ { node with dbStore := dbStore } .delete _ key).trans ?_
              rw [hcell, Function.update_self, Function.update_idem]
          | none =>
              exact ⟨rfl, hw, hcell⟩

theorem putBack_cell (put : PutBack D) (h : Writes node) (now : Nat) (key : Str) :
    Writes (put.run now key node) ∧ nodeCell (put.run now key node) =
      Function.update (nodeCell node) key (put.run now key (nodeCell node key)) := by
  cases put with
  | nothing => exact ⟨h, (Function.update_eq_self key _).symm⟩
  | insert value => exact insert_cell h now key value
  | delete => exact delete_cell h now key

/-- A command in a script reads and writes the cell of its key, and no other. -/
theorem run_cell (a : Access S D) (h : Writes node) (now : Nat) (key : Str) :
    (a.run now key node).1 = (a.run now key (nodeCell node key)).1 ∧
      Writes (a.run now key node).2 ∧
      nodeCell (a.run now key node).2 =
        Function.update (nodeCell node) key (a.run now key (nodeCell node key)).2 := by
  cases a with
  | take f =>
      obtain ⟨hval, hw, hcell⟩ := take_cell h now key
      obtain ⟨hw', hcell'⟩ := putBack_cell (f (node.take now key).1).2 hw now key
      refine ⟨congrArg (fun e => (f e).1) hval, hw', hcell'.trans ?_⟩
      rw [hcell, Function.update_self, Function.update_idem, hval]
      rfl
  | select f =>
      obtain ⟨hval, hw, hcell⟩ := select_cell h now key
      obtain ⟨hw', hcell'⟩ := putBack_cell (f (node.select now key).1).2 hw now key
      refine ⟨congrArg (fun e => (f e).1) hval, hw', hcell'.trans ?_⟩
      rw [hcell, Function.update_self, Function.update_idem, hval]
      rfl
  | insert value done =>
      obtain ⟨hw, hcell⟩ := insert_cell h now key value
      exact ⟨rfl, hw, hcell⟩
  | read f =>
      obtain ⟨hval, hw, hcell⟩ := select_cell h now key
      exact ⟨congrArg (fun e => Done.mk (f e) none false) hval, hw, hcell⟩

/-- The commit of a shard gives the shard what the script has made of it. -/
theorem commit_cell {node : LuaCacheNode D} (h : Writes node) {drained : List (Str × ChangeOp D)}
    (hd : Drains node.differMap drained) :
    Writes (node.commit drained) ∧ ∀ k, (nodeCell (node.commit drained) k).base = (nodeCell node k).committed ∧
      (nodeCell (node.commit drained) k).committed = (nodeCell node k).committed := by
  obtain ⟨g, hg⟩ := h
  obtain ⟨g', hg', hlookup⟩ := commit_lookup hg hd
  refine ⟨⟨g', hg'⟩, fun k => ?_⟩
  have hempty : (nodeCell (node.commit drained) k).committed = (nodeCell (node.commit drained) k).base := by
    rw [LuaCell.committed, nodeCell, LuaCacheNode.commit, Finmap.lookup_empty]
  rw [hempty, and_self]
  have hbase : (nodeCell (node.commit drained) k).base = g'.shard.dbStore.lookup k := by
    rw [nodeCell, hg']
    rfl
  rw [hbase, hlookup, LuaCell.committed, nodeCell, hg]
  cases node.differMap.lookup k with
  | none => rfl
  | some change => cases change <;> rfl

variable [Host]

/-- The locked shards of a script as the cells of their keys. -/
structure Overlay (D : Type) where
  declared : Fin Host.numShards → Bool
  cells : Str → LuaCell D

instance : Context (Overlay D) D where
  access o now key a :=
    if o.declared (Host.shardIndex key) then
      let (done, cell) := a.run now key (o.cells key)
      (done, { o with cells := Function.update o.cells key cell })
    else (⟨.error (undeclared (Host.shardIndex key)), none, false⟩, o)

structure Reflects (sessions : Sessions D) (o : Overlay D) : Prop where
  declared : ∀ i, o.declared i = (sessions.lookup i).isSome
  writes : ∀ i node, sessions.lookup i = some node → Writes node
  cells : ∀ k node, sessions.lookup (Host.shardIndex k) = some node → nodeCell node k = o.cells k

theorem Reflects.simulates (now : Nat) (key : Str) :
    Simulates (S := S) (J := J) (Reflects (D := Value S J)) now key := by
  intro a sessions o h
  cases hl : sessions.lookup (Host.shardIndex key) with
  | none =>
      have hd : o.declared (Host.shardIndex key) = false := by rw [h.declared, hl]; rfl
      simp only [Context.access, Sessions.access, hl, hd]
      exact ⟨rfl, h⟩
  | some node =>
      have hd : o.declared (Host.shardIndex key) = true := by rw [h.declared, hl]; rfl
      obtain ⟨hdone, hw, hcell⟩ := run_cell a (h.writes _ node hl) now key
      rw [h.cells key node hl] at hdone hcell
      have hreply : (sessions.access now key a).1 = (a.run now key node).1 := by
        simp only [Sessions.access, hl]
      simp only [Context.access, hd, if_true]
      refine ⟨hreply.trans hdone, fun i => ?_, fun i node' hi => ?_, fun k node' hk => ?_⟩
      · rw [Sessions.access_lookup, h.declared]
        split
        · rw [Option.isSome_map]
        · rfl
      · rw [Sessions.access_lookup] at hi
        split at hi
        · next he =>
          rw [he, hl] at hi
          cases hi
          exact hw
        · exact h.writes i node' hi
      · rw [Sessions.access_lookup] at hk
        split at hk
        · next he =>
          rw [he, hl] at hk
          cases hk
          simp only [hcell, Function.update_apply]
          split
          · rfl
          · exact h.cells k node (by rw [he, hl])
        · next he =>
          have hne : k ≠ key := fun e => he (e ▸ rfl)
          simp only [Function.update_of_ne hne]
          exact h.cells k node' hk

/-- A command in a script does to the locked shards what it does to the overlay. -/
theorem Reflects.execute [F64 S] [SerdeJson J] {sessions : Sessions (Value S J)}
    {o : Overlay (Value S J)} (h : Reflects sessions o) (rt : Runtime) (now : Nat) (c : Command S) :
    (Executor.execute rt now sessions c).1 = (Executor.execute rt now o c).1 ∧
      Reflects (Executor.execute rt now sessions c).2 (Executor.execute rt now o c).2 :=
  execute_sim rt c (fun k _ => Reflects.simulates now k) h

end RustKv.Executor
