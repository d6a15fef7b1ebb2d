import Mathlib.Algebra.BigOperators.Group.List.Lemmas
import Mathlib.Algebra.Order.BigOperators.Group.List
import Mathlib.Data.Multiset.Range
import RustKv.BoundedChannel
import RustKv.Domain
import RustKv.Protocol

namespace RustKv.LuaRouter

open Protocol Text Domain BoundedChannel

/-- What a client sends to a Lua thread. `resp` names the envelope for the answer, and
`selectedDb` is the database that the connection state carries. -/
structure LuaTask where
  resp : Nat
  command : EvalCommand
  selectedDb : Fin 16

abbrev EvalResult := Except KvError Frame

/-- A thread that is `stuck` is in a script that never ends, and one that is `dead` has
panicked in a script or before its first. -/
inductive LuaThread where
  | serving
  | stuck
  | dead
deriving DecidableEq

/-- A Lua thread and its channel, which is closed when the thread is dead: the task it is at,
those that were put into its channel so far, those it has answered, each with what
`lua_vm_redis_call` gave, and those that were dropped with it. -/
structure LuaWorker where
  channel : Channel LuaTask
  thread : LuaThread
  task : Option LuaTask
  sent : List LuaTask
  ran : List (LuaTask × EvalResult)
  lost : List LuaTask

/-- A client inside `dispatch`, before it looks at the sender `offset + k`. -/
structure Dispatch where
  task : LuaTask
  offset : Nat
  bestIndex : Nat
  maxCapacity : Nat
  k : Nat

/-- The Lua threads, the clients inside `dispatch`, every EVAL so far, those that no thread
would take, and the answers that have come. -/
structure LuaPool where
  senders : List LuaWorker
  dispatching : List Dispatch
  asked : List LuaTask
  refused : List LuaTask
  replies : List (LuaTask × EvalResult)

def LuaWorker.start (queueSize : Nat) : LuaWorker :=
  ⟨.new queueSize, .serving, none, [], [], []⟩

def startMultiLuaActor (workerNum queueSize : Nat) : LuaPool where
  senders := List.replicate workerNum (.start queueSize)
  dispatching := []
  asked := []
  refused := []
  replies := []

def LuaPool.capacity (p : LuaPool) (i : Nat) : Nat :=
  match p.senders[i]? with
  | some w => w.channel.capacity
  | none => 0

def Dispatch.start (task : LuaTask) (offset : Nat) (capacity : Nat → Nat) : Dispatch :=
  ⟨task, offset, offset, capacity offset, 1⟩

def Dispatch.look (d : Dispatch) (n : Nat) (capacity : Nat → Nat) : Dispatch :=
  let i := (d.offset + d.k) % n
  let cap := capacity i
  if cap > d.maxCapacity then { d with maxCapacity := cap, bestIndex := i, k := d.k + 1 }
  else { d with k := d.k + 1 }

/-- The channel of the thread is closed, or there is no thread. -/
def evalRefused : EvalResult := .error (.protocolError "Lua Worker 已挂掉")

/-- The envelope was dropped without an answer. -/
def evalLost : EvalResult := .error (.protocolError "wtf")

/-- A client executes EVAL. `random` is what the generator of `dispatch` gives. -/
def LuaPool.eval (p : LuaPool) (command : EvalCommand) (selectedDb : Fin 16) (random : Nat) : LuaPool :=
  let task : LuaTask := ⟨p.asked.length, command, selectedDb⟩
  let n := p.senders.length
  if n = 0 then { p with
    asked := p.asked ++ [task]
    refused := p.refused ++ [task]
    replies := p.replies ++ [(task, evalRefused)] }
  else { p with
    asked := p.asked ++ [task]
    dispatching := p.dispatching ++ [.start task (random % n) p.capacity] }

def LuaPool.look (p : LuaPool) (j : Nat) (d : Dispatch) : LuaPool :=
  { p with dispatching := p.dispatching.set j (d.look p.senders.length p.capacity) }

def LuaWorker.reserve (w : LuaWorker) (task : LuaTask) : LuaWorker :=
  { w with channel := w.channel.reserve task }

def LuaPool.send (p : LuaPool) (j : Nat) (d : Dispatch) (w : LuaWorker) : LuaPool :=
  { p with
    dispatching := p.dispatching.eraseIdx j
    senders := p.senders.set d.bestIndex (w.reserve d.task) }

def LuaPool.refuse (p : LuaPool) (j : Nat) (d : Dispatch) : LuaPool :=
  { p with
    dispatching := p.dispatching.eraseIdx j
    refused := p.refused ++ [d.task]
    replies := p.replies ++ [(d.task, evalRefused)] }

def LuaPool.setSender (p : LuaPool) (i : Nat) (w : LuaWorker) : LuaPool :=
  { p with senders := p.senders.set i w }

/-- A thread goes on and clients get their answers, those of `refused` the refusal. -/
def LuaPool.settle (p : LuaPool) (i : Nat) (w : LuaWorker) (answers : List (LuaTask × EvalResult))
    (refused : List LuaTask) : LuaPool :=
  { p with
    senders := p.senders.set i w
    refused := p.refused ++ refused
    replies := p.replies ++ answers ++ refused.map (fun task => (task, evalRefused)) }

def LuaWorker.finish (w : LuaWorker) (task : LuaTask) (result : EvalResult) : LuaWorker :=
  { w with task := none, ran := w.ran ++ [(task, result)] }

def LuaPool.reply (p : LuaPool) (i : Nat) (w : LuaWorker) (task : LuaTask) (result : EvalResult) : LuaPool :=
  p.settle i (w.finish task result) [(task, result)] []

/-- The thread panics. Its task and those in its channel are dropped. -/
def LuaWorker.die (w : LuaWorker) : LuaWorker :=
  { w with
    channel := w.channel.close
    thread := .dead
    task := none
    lost := w.task.toList ++ w.channel.queue }

def LuaPool.die (p : LuaPool) (i : Nat) (w : LuaWorker) : LuaPool :=
  p.settle i w.die ((w.task.toList ++ w.channel.queue).map (fun task => (task, evalLost))) w.channel.waiters

/-- A client that was given a place comes to it after the thread has died. -/
def LuaPool.leave (p : LuaPool) (i : Nat) (w : LuaWorker) (task : LuaTask) (c : Channel LuaTask) : LuaPool :=
  p.settle i { w with channel := c } [] [task]

/-- What happens at one channel: a client with a place puts its task there, the thread takes
the next task when it is at none, and gives the place back. The script it runs may never
end. What is put into a closed channel stays there. -/
inductive LuaWorker.Moves : LuaWorker → LuaWorker → Prop
  | push {w : LuaWorker} {i : Nat} {task : LuaTask} {c : Channel LuaTask}
      (h : w.channel.push i = some (task, c)) : Moves w { w with channel := c, sent := w.sent ++ [task] }
  | recv {w : LuaWorker} {task : LuaTask} {c : Channel LuaTask} (hserving : w.thread = .serving)
      (hidle : w.task = none) (h : w.channel.recv = some (task, c)) :
      Moves w { w with channel := c, task := some task }
  | release {w : LuaWorker} {c : Channel LuaTask} (h : w.channel.release = some c) :
      Moves w { w with channel := c }
  | hang {w : LuaWorker} {task : LuaTask} (hserving : w.thread = .serving) (htask : w.task = some task) :
      Moves w { w with thread := .stuck }

/-- The steps between an EVAL's arrival and its answer. A script may give any result, and a
thread may panic at its task or while it has none. -/
inductive LuaPool.Moves : LuaPool → LuaPool → Prop
  | look {p : LuaPool} {j : Nat} {d : Dispatch} (hd : p.dispatching[j]? = some d)
      (hk : d.k < p.senders.length) : Moves p (p.look j d)
  | send {p : LuaPool} {j : Nat} {d : Dispatch} {w : LuaWorker} (hd : p.dispatching[j]? = some d)
      (hk : p.senders.length ≤ d.k) (hw : p.senders[d.bestIndex]? = some w) (halive : w.thread ≠ .dead) :
      Moves p (p.send j d w)
  | refuse {p : LuaPool} {j : Nat} {d : Dispatch} {w : LuaWorker} (hd : p.dispatching[j]? = some d)
      (hk : p.senders.length ≤ d.k) (hw : p.senders[d.bestIndex]? = some w) (hdead : w.thread = .dead) :
      Moves p (p.refuse j d)
  | channel {p : LuaPool} {i : Nat} {w w' : LuaWorker} (hw : p.senders[i]? = some w)
      (h : w.Moves w') : Moves p (p.setSender i w')
  | reply {p : LuaPool} {i : Nat} {w : LuaWorker} {task : LuaTask} (result : EvalResult)
      (hw : p.senders[i]? = some w) (hserving : w.thread = .serving) (htask : w.task = some task)
      (hreturned : w.channel.returning = 0) : Moves p (p.reply i w task result)
  | die {p : LuaPool} {i : Nat} {w : LuaWorker} (hw : p.senders[i]? = some w)
      (hserving : w.thread = .serving) (hreturned : w.channel.returning = 0) : Moves p (p.die i w)
  | leave {p : LuaPool} {i k : Nat} {w : LuaWorker} {task : LuaTask} {c : Channel LuaTask}
      (hw : p.senders[i]? = some w) (hdead : w.thread = .dead) (h : w.channel.leave k = some (task, c)) :
      Moves p (p.leave i w task c)

inductive Reachable (workerNum queueSize : Nat) : LuaPool → Prop
  | start : Reachable workerNum queueSize (startMultiLuaActor workerNum queueSize)
  | eval {p : LuaPool} (h : Reachable workerNum queueSize p) (command : EvalCommand) (selectedDb : Fin 16)
      (random : Nat) : Reachable workerNum queueSize (p.eval command selectedDb random)
  | move {p p' : LuaPool} (h : Reachable workerNum queueSize p) (hmove : p.Moves p') :
      Reachable workerNum queueSize p'

section Sums

variable {α M : Type} [AddCommMonoid M]

theorem sum_map_set (f : α → M) {l : List α} {i : Nat} {a : α} (h : l[i]? = some a) (b : α) :
    ((l.set i b).map f).sum + f a = (l.map f).sum + f b := by
  induction l generalizing i with
  | nil => cases h
  | cons x l ih =>
      cases i with
      | zero =>
          cases h
          simp only [List.set_cons_zero, List.map_cons, List.sum_cons]
          abel
      | succ i =>
          have hrest := ih (by simpa using h)
          simp only [List.set_cons_succ, List.map_cons, List.sum_cons]
          rw [add_assoc, hrest, ← add_assoc]

theorem sum_map_eraseIdx (f : α → M) {l : List α} {i : Nat} {a : α} (h : l[i]? = some a) :
    ((l.eraseIdx i).map f).sum + f a = (l.map f).sum := by
  obtain ⟨hlt, rfl⟩ := List.getElem?_eq_some_iff.mp h
  have hperm := ((List.getElem_cons_eraseIdx_perm hlt).map f).sum_eq
  rw [List.map_cons, List.sum_cons] at hperm
  rw [add_comm, hperm]

end Sums

section Worker

variable {queueSize : Nat} {w w' : LuaWorker}

/-- What a thread keeps between any two steps: it comes to its tasks in the order in which
they were put into the channel. -/
structure LuaWorker.Sound (queueSize : Nat) (w : LuaWorker) : Prop where
  channel : w.channel.Sound queueSize
  order : w.sent = w.ran.map Prod.fst ++ w.lost ++ w.task.toList ++ w.channel.queue
  idle : w.task = none → w.channel.returning = 0
  lost : w.lost ≠ [] → w.thread = .dead
  dead : w.thread = .dead → w.task = none ∧ w.channel.waiters = []

/-- The tasks sent to a thread that it has not answered. -/
def LuaWorker.held (w : LuaWorker) : Multiset LuaTask := w.channel.held + ↑w.task.toList

/-- The tasks a thread was sent and their clients' answers. -/
def LuaWorker.answered (w : LuaWorker) : Multiset (LuaTask × EvalResult) :=
  ↑w.ran + ↑(w.lost.map (fun task => (task, evalLost)))

def LuaThread.weight : LuaThread → Nat
  | .serving => 1
  | .stuck | .dead => 0

def LuaWorker.weight (w : LuaWorker) : Nat :=
  w.channel.weight + w.task.toList.length + w.thread.weight

theorem sound_start (queueSize : Nat) : (LuaWorker.start queueSize).Sound queueSize :=
  ⟨Channel.sound_new queueSize, rfl, fun _ => rfl, fun h => absurd rfl h, nofun⟩

theorem LuaWorker.Sound.lost_nil (h : w.Sound queueSize) (halive : w.thread ≠ .dead) : w.lost = [] := by
  by_contra hne
  exact halive (h.lost hne)

theorem LuaWorker.Sound.reserve (h : w.Sound queueSize) (halive : w.thread ≠ .dead) (task : LuaTask) :
    (w.reserve task).Sound queueSize := by
  refine ⟨h.channel.reserve task, ?_, ?_, h.lost, fun hdead => absurd hdead halive⟩
  · rw [LuaWorker.reserve, reserve_queue]
    exact h.order
  · rw [LuaWorker.reserve, reserve_returning]
    exact h.idle

theorem LuaWorker.Sound.moves (h : w.Sound queueSize) (hmove : w.Moves w') : w'.Sound queueSize := by
  cases hmove with
  | push hc =>
      refine ⟨h.channel.push hc, ?_, ?_, h.lost, ?_⟩
      · obtain ⟨-, rfl⟩ := push_cases hc
        simp only [h.order, List.append_assoc]
      · obtain ⟨-, rfl⟩ := push_cases hc
        exact h.idle
      · obtain ⟨-, rfl⟩ := push_cases hc
        exact h.dead
  | recv hserving hidle hc =>
      refine ⟨h.channel.recv hc, ?_, nofun, h.lost, fun hdead => ?_⟩
      · obtain ⟨rest, hq, rfl⟩ := recv_cases hc
        simp [h.order, hidle, hq]
      · rw [hserving] at hdead
        cases hdead
  | release hc =>
      refine ⟨h.channel.release hc, ?_, fun hidle => ?_, h.lost, fun hdead => ?_⟩
      · obtain ⟨n, -, ⟨b, rest, -, rfl⟩ | ⟨-, rfl⟩⟩ := release_cases hc <;> exact h.order
      · obtain ⟨n, hn, -⟩ := release_cases hc
        rw [h.idle hidle] at hn
        cases hn
      · obtain ⟨n, hn, -⟩ := release_cases hc
        rw [h.idle (h.dead hdead).1] at hn
        cases hn
  | hang hserving htask =>
      refine ⟨h.channel, h.order, h.idle, fun hne => ?_, nofun⟩
      rw [h.lost hne] at hserving
      cases hserving

theorem LuaWorker.Sound.finish (h : w.Sound queueSize) (hserving : w.thread = .serving) {task : LuaTask}
    (htask : w.task = some task) (hreturned : w.channel.returning = 0) (result : EvalResult) :
    (w.finish task result).Sound queueSize := by
  have hlost : w.lost = [] := h.lost_nil (by simp [hserving])
  refine ⟨h.channel, ?_, fun _ => hreturned, h.lost, fun hdead => ⟨rfl, (h.dead hdead).2⟩⟩
  simp [LuaWorker.finish, h.order, htask, hlost]

theorem LuaWorker.Sound.die (h : w.Sound queueSize) (hserving : w.thread = .serving)
    (hreturned : w.channel.returning = 0) : w.die.Sound queueSize := by
  have hlost : w.lost = [] := h.lost_nil (by simp [hserving])
  refine ⟨h.channel.close, ?_, fun _ => hreturned, fun _ => rfl, fun _ => ⟨rfl, rfl⟩⟩
  simp [LuaWorker.die, Channel.close, h.order, hlost]

theorem LuaWorker.Sound.leave (h : w.Sound queueSize) (hdead : w.thread = .dead) {i : Nat} {task : LuaTask}
    {c : Channel LuaTask} (hc : w.channel.leave i = some (task, c)) :
    { w with channel := c }.Sound queueSize := by
  obtain ⟨htask, hnone⟩ := h.dead hdead
  refine ⟨h.channel.leave hnone hc, ?_, ?_, h.lost, ?_⟩ <;> obtain ⟨-, rfl⟩ := leave_cases hc
  · exact h.order
  · exact h.idle
  · exact h.dead

theorem held_moves (hmove : w.Moves w') : w'.held = w.held ∧ w'.answered = w.answered := by
  refine ⟨?_, by cases hmove <;> rfl⟩
  cases hmove with
  | push hc => simp only [LuaWorker.held, held_push hc]
  | recv hserving hidle hc =>
      simp only [LuaWorker.held, held_recv hc, hidle, Option.toList_some, Option.toList_none,
        Multiset.coe_singleton, Multiset.coe_nil, add_zero]
  | release hc => simp only [LuaWorker.held, held_release hc]
  | hang hserving htask => rfl

theorem held_finish {task : LuaTask} (htask : w.task = some task) (result : EvalResult) :
    w.held = (w.finish task result).held + {task} := by
  simp [LuaWorker.held, LuaWorker.finish, htask]

theorem answered_finish (w : LuaWorker) (task : LuaTask) (result : EvalResult) :
    (w.finish task result).answered = w.answered + {(task, result)} := by
  simp only [LuaWorker.answered, LuaWorker.finish, ← Multiset.coe_add, Multiset.coe_singleton]
  abel

theorem held_die (w : LuaWorker) :
    w.held = w.die.held + (↑(w.task.toList ++ w.channel.queue) + ↑w.channel.waiters) := by
  simp only [LuaWorker.held, held_close w.channel, LuaWorker.die, Option.toList_none, Multiset.coe_nil,
    ← Multiset.coe_add]
  abel

/-- The tasks that nobody comes to any more: a thread in an endless script leaves its task,
its channel and the clients in line, a dead one what was put into its closed channel. -/
def LuaWorker.abandoned (w : LuaWorker) : List LuaTask :=
  match w.thread with
  | .serving => []
  | .stuck => w.task.toList ++ w.channel.queue ++ w.channel.waiters
  | .dead => w.channel.queue

end Worker

section Pool

variable {workerNum queueSize : Nat} {p p' : LuaPool} {i j : Nat} {d : Dispatch} {w w' : LuaWorker}

/-- The tasks of the clients inside `dispatch` and those at the threads. -/
def LuaPool.pending (p : LuaPool) : Multiset LuaTask :=
  (p.dispatching.map (fun d => ({d.task} : Multiset LuaTask))).sum + (p.senders.map LuaWorker.held).sum

def LuaPool.answered (p : LuaPool) : Multiset (LuaTask × EvalResult) :=
  (p.senders.map LuaWorker.answered).sum

/-- How many steps are left, were no client to come any more. -/
def LuaPool.weight (p : LuaPool) : Nat :=
  (p.dispatching.map (fun d => 6 + (p.senders.length - d.k))).sum + (p.senders.map LuaWorker.weight).sum

structure LuaPool.Sound (workerNum queueSize : Nat) (p : LuaPool) : Prop where
  length : p.senders.length = workerNum
  senders : ∀ w ∈ p.senders, w.Sound queueSize
  dispatching : ∀ d ∈ p.dispatching, d.bestIndex < workerNum
  asked : p.asked.map LuaTask.resp = List.range p.asked.length
  conserved : (p.asked : Multiset LuaTask) = p.pending + ↑(p.replies.map Prod.fst)
  replies : (p.replies : Multiset (LuaTask × EvalResult)) =
    p.answered + ↑(p.refused.map (fun task => (task, evalRefused)))
  refused : p.refused ≠ [] → workerNum = 0 ∨ ∃ w ∈ p.senders, w.thread = .dead

theorem pool_sound_start (workerNum queueSize : Nat) :
    (startMultiLuaActor workerNum queueSize).Sound workerNum queueSize where
  length := List.length_replicate
  senders w hw := by
    rw [List.eq_of_mem_replicate hw]
    exact sound_start queueSize
  dispatching d hd := by cases hd
  asked := rfl
  conserved := by simp [LuaPool.pending, startMultiLuaActor, LuaWorker.held, LuaWorker.start]
  replies := by simp [LuaPool.answered, startMultiLuaActor, LuaWorker.answered, LuaWorker.start]
  refused h := absurd rfl h

@[simp]
theorem look_k (d : Dispatch) (n : Nat) (capacity : Nat → Nat) : (d.look n capacity).k = d.k + 1 := by
  unfold Dispatch.look
  dsimp only
  split <;> rfl

@[simp]
theorem look_offset (d : Dispatch) (n : Nat) (capacity : Nat → Nat) : (d.look n capacity).offset = d.offset := by
  unfold Dispatch.look
  dsimp only
  split <;> rfl

@[simp]
theorem look_task (d : Dispatch) (n : Nat) (capacity : Nat → Nat) : (d.look n capacity).task = d.task := by
  unfold Dispatch.look
  dsimp only
  split <;> rfl

theorem pending_look (hd : p.dispatching[j]? = some d) : (p.look j d).pending = p.pending := by
  have hsum := sum_map_set (fun d : Dispatch => ({d.task} : Multiset LuaTask)) hd
    (d.look p.senders.length p.capacity)
  rw [look_task] at hsum
  simp only [LuaPool.pending, LuaPool.look, add_right_cancel hsum]

theorem pending_send (hd : p.dispatching[j]? = some d) (hw : p.senders[d.bestIndex]? = some w) :
    (p.send j d w).pending = p.pending := by
  have hdispatching := sum_map_eraseIdx (fun d : Dispatch => ({d.task} : Multiset LuaTask)) hd
  have hsenders := sum_map_set LuaWorker.held hw (w.reserve d.task)
  have hheld : (w.reserve d.task).held = w.held + {d.task} := by
    simp only [LuaWorker.held, LuaWorker.reserve, held_reserve]
    abel
  rw [hheld, ← add_assoc, add_right_comm] at hsenders
  simp only [LuaPool.pending, LuaPool.send, ← hdispatching, add_right_cancel hsenders]
  abel

theorem pending_setSender (hw : p.senders[i]? = some w) (hheld : w'.held = w.held) :
    (p.setSender i w').pending = p.pending := by
  have hsenders := sum_map_set LuaWorker.held hw w'
  rw [hheld] at hsenders
  simp only [LuaPool.pending, LuaPool.setSender, add_right_cancel hsenders]

theorem pending_refuse (hd : p.dispatching[j]? = some d) : p.pending = (p.refuse j d).pending + {d.task} := by
  have hdispatching := sum_map_eraseIdx (fun d : Dispatch => ({d.task} : Multiset LuaTask)) hd
  simp only [LuaPool.pending, LuaPool.refuse, ← hdispatching]
  abel

theorem pending_settle {tasks : Multiset LuaTask} (hw : p.senders[i]? = some w)
    (hheld : w.held = w'.held + tasks) (answers : List (LuaTask × EvalResult)) (refused : List LuaTask) :
    p.pending = (p.settle i w' answers refused).pending + tasks := by
  have hsenders := sum_map_set LuaWorker.held hw w'
  rw [hheld, ← add_assoc, add_right_comm] at hsenders
  simp only [LuaPool.pending, LuaPool.settle, ← add_right_cancel hsenders]
  abel

theorem answered_set {answers : Multiset (LuaTask × EvalResult)} (hw : p.senders[i]? = some w)
    (hanswered : w'.answered = w.answered + answers) :
    ((p.senders.set i w').map LuaWorker.answered).sum = p.answered + answers := by
  have hsenders := sum_map_set LuaWorker.answered hw w'
  rw [hanswered, ← add_assoc, add_right_comm] at hsenders
  exact add_right_cancel hsenders

theorem answered_kept (hw : p.senders[i]? = some w) (w' : LuaWorker) (hanswered : w'.answered = w.answered) :
    ((p.senders.set i w').map LuaWorker.answered).sum = p.answered := by
  rw [answered_set hw (hanswered.trans (add_zero _).symm), add_zero]

theorem LuaPool.Sound.senders_set (h : p.Sound workerNum queueSize) (hw : w'.Sound queueSize) :
    ∀ u ∈ p.senders.set i w', u.Sound queueSize := by
  intro u hu
  rcases List.mem_or_eq_of_mem_set hu with hu | rfl
  · exact h.senders u hu
  · exact hw

theorem exists_dead_set (hw : p.senders[i]? = some w) (hdead : w.thread = .dead → w'.thread = .dead)
    (h : ∃ u ∈ p.senders, u.thread = .dead) : ∃ u ∈ p.senders.set i w', u.thread = .dead := by
  obtain ⟨u, hu, hthread⟩ := h
  obtain ⟨k, hk⟩ := List.mem_iff_getElem?.mp hu
  by_cases hki : k = i
  · subst hki
    rw [hw, Option.some_inj] at hk
    subst hk
    exact ⟨w', List.mem_of_getElem? (List.getElem?_set_self (List.getElem?_eq_some_iff.mp hw).1), hdead hthread⟩
  · exact ⟨u, List.mem_of_getElem? ((List.getElem?_set_ne (Ne.symm hki)).trans hk), hthread⟩

theorem LuaPool.Sound.look (h : p.Sound workerNum queueSize) (hd : p.dispatching[j]? = some d)
    (hk : d.k < p.senders.length) : (p.look j d).Sound workerNum queueSize := by
  refine { h with dispatching := fun e he => ?_, conserved := ?_ }
  · rcases List.mem_or_eq_of_mem_set he with he | rfl
    · exact h.dispatching e he
    · have hbest := h.dispatching d (List.mem_of_getElem? hd)
      unfold Dispatch.look
      dsimp only
      split
      · rw [← h.length]
        exact Nat.mod_lt _ (Nat.zero_lt_of_lt hk)
      · exact hbest
  · rw [pending_look hd]
    exact h.conserved

theorem LuaPool.Sound.send (h : p.Sound workerNum queueSize) (hd : p.dispatching[j]? = some d)
    (hw : p.senders[d.bestIndex]? = some w) (halive : w.thread ≠ .dead) :
    (p.send j d w).Sound workerNum queueSize where
  length := by rw [LuaPool.send, List.length_set, h.length]
  senders := h.senders_set ((h.senders w (List.mem_of_getElem? hw)).reserve halive d.task)
  dispatching e he := h.dispatching e (List.mem_of_mem_eraseIdx he)
  asked := h.asked
  conserved := by
    rw [pending_send hd hw]
    exact h.conserved
  replies := by
    rw [LuaPool.answered, LuaPool.send, answered_kept hw (w.reserve d.task) rfl]
    exact h.replies
  refused hne := (h.refused hne).imp_right (exists_dead_set hw id)

theorem LuaPool.Sound.refuse (h : p.Sound workerNum queueSize) (hd : p.dispatching[j]? = some d)
    (hw : p.senders[d.bestIndex]? = some w) (hdead : w.thread = .dead) :
    (p.refuse j d).Sound workerNum queueSize where
  length := h.length
  senders := h.senders
  dispatching e he := h.dispatching e (List.mem_of_mem_eraseIdx he)
  asked := h.asked
  conserved := by
    have hconserved := h.conserved
    rw [pending_refuse hd] at hconserved
    change (p.asked : Multiset LuaTask) = _
    simp only [hconserved, LuaPool.refuse, List.map_append, List.map_cons, List.map_nil,
      ← Multiset.coe_add, Multiset.coe_singleton]
    abel
  replies := by
    change _ = p.answered + _
    simp only [LuaPool.refuse, List.map_append, ← Multiset.coe_add, h.replies, List.map_cons, List.map_nil]
    abel
  refused _ := .inr ⟨w, List.mem_of_getElem? hw, hdead⟩

theorem LuaPool.Sound.channel (h : p.Sound workerNum queueSize) (hw : p.senders[i]? = some w)
    (hmove : w.Moves w') : (p.setSender i w').Sound workerNum queueSize where
  length := by rw [LuaPool.setSender, List.length_set, h.length]
  senders := h.senders_set ((h.senders w (List.mem_of_getElem? hw)).moves hmove)
  dispatching := h.dispatching
  asked := h.asked
  conserved := by
    rw [pending_setSender hw (held_moves hmove).1]
    exact h.conserved
  replies := by
    rw [LuaPool.answered, LuaPool.setSender, answered_kept hw w' (held_moves hmove).2]
    exact h.replies
  refused hne := by
    refine (h.refused hne).imp_right (exists_dead_set hw fun hdead => ?_)
    cases hmove with
    | push | recv | release => exact hdead
    | hang hserving => simp [hserving] at hdead

theorem LuaPool.Sound.settle (h : p.Sound workerNum queueSize) (hw : p.senders[i]? = some w)
    (hsound : w'.Sound queueSize) {answers : List (LuaTask × EvalResult)} {refused : List LuaTask}
    (hheld : w.held = w'.held + (↑(answers.map Prod.fst) + ↑refused))
    (hanswered : w'.answered = w.answered + ↑answers) (hdead : w.thread = .dead → w'.thread = .dead)
    (hrefused : refused ≠ [] → w'.thread = .dead) : (p.settle i w' answers refused).Sound workerNum queueSize where
  length := by rw [LuaPool.settle, List.length_set, h.length]
  senders := h.senders_set hsound
  dispatching := h.dispatching
  asked := h.asked
  conserved := by
    have hconserved := h.conserved
    rw [pending_settle hw hheld answers refused] at hconserved
    have hfst : (fun task : LuaTask => task) = id := rfl
    change (p.asked : Multiset LuaTask) = _
    simp only [hconserved, LuaPool.settle, List.map_append, List.map_map, Function.comp_def, hfst,
      List.map_id, ← Multiset.coe_add]
    abel
  replies := by
    rw [LuaPool.answered, LuaPool.settle, answered_set hw hanswered]
    simp only [← Multiset.coe_add, h.replies, List.map_append]
    abel
  refused hne := by
    by_cases hnil : refused = []
    · rw [LuaPool.settle, hnil, List.append_nil] at hne
      exact (h.refused hne).imp_right (exists_dead_set hw hdead)
    · have hlt : i < p.senders.length := (List.getElem?_eq_some_iff.mp hw).1
      exact .inr ⟨w', List.mem_of_getElem? (List.getElem?_set_self hlt), hrefused hnil⟩

theorem LuaPool.Sound.reply {task : LuaTask} (h : p.Sound workerNum queueSize)
    (hw : p.senders[i]? = some w) (hserving : w.thread = .serving) (htask : w.task = some task)
    (hreturned : w.channel.returning = 0) (result : EvalResult) :
    (p.reply i w task result).Sound workerNum queueSize :=
  h.settle hw ((h.senders w (List.mem_of_getElem? hw)).finish hserving htask hreturned result)
    (held_finish htask result) (answered_finish w task result) id (fun hne => absurd rfl hne)

theorem LuaPool.Sound.die (h : p.Sound workerNum queueSize) (hw : p.senders[i]? = some w)
    (hserving : w.thread = .serving) (hreturned : w.channel.returning = 0) :
    (p.die i w).Sound workerNum queueSize := by
  have hsound := h.senders w (List.mem_of_getElem? hw)
  refine h.settle hw (hsound.die hserving hreturned) ?_ ?_ (fun _ => rfl) (fun _ => rfl)
  · have hfst : (fun task : LuaTask => task) = id := rfl
    rw [List.map_map, Function.comp_def, hfst, List.map_id]
    exact held_die w
  · have hlost : w.lost = [] := hsound.lost_nil (by simp [hserving])
    simp [LuaWorker.answered, LuaWorker.die, hlost]

theorem LuaPool.Sound.leave {k : Nat} {task : LuaTask} {c : BoundedChannel.Channel LuaTask}
    (h : p.Sound workerNum queueSize) (hw : p.senders[i]? = some w) (hdead : w.thread = .dead)
    (hc : w.channel.leave k = some (task, c)) : (p.leave i w task c).Sound workerNum queueSize := by
  refine h.settle hw ((h.senders w (List.mem_of_getElem? hw)).leave hdead hc) ?_ ?_ id (fun _ => hdead)
  · simp only [LuaWorker.held, held_leave hc, List.map_nil, Multiset.coe_nil, zero_add, Multiset.coe_singleton]
    abel
  · exact (add_zero _).symm

theorem LuaPool.Sound.moves (h : p.Sound workerNum queueSize) (hmove : p.Moves p') :
    p'.Sound workerNum queueSize := by
  cases hmove with
  | look hd hk => exact h.look hd hk
  | send hd hk hw halive => exact h.send hd hw halive
  | refuse hd hk hw hdead => exact h.refuse hd hw hdead
  | channel hw hm => exact h.channel hw hm
  | reply result hw hserving htask hreturned => exact h.reply hw hserving htask hreturned result
  | die hw hserving hreturned => exact h.die hw hserving hreturned
  | leave hw hdead hc => exact h.leave hw hdead hc

theorem map_resp_append {asked : List LuaTask} (h : asked.map LuaTask.resp = List.range asked.length)
    (command : EvalCommand) (selectedDb : Fin 16) :
    (asked ++ [LuaTask.mk asked.length command selectedDb]).map LuaTask.resp =
      List.range (asked ++ [LuaTask.mk asked.length command selectedDb]).length := by
  simp [h, List.range_succ]

theorem LuaPool.Sound.eval (h : p.Sound workerNum queueSize) (command : EvalCommand)
    (selectedDb : Fin 16) (random : Nat) : (p.eval command selectedDb random).Sound workerNum queueSize := by
  have hconserved := h.conserved
  unfold LuaPool.eval
  dsimp only
  split
  next hn =>
    refine { h with
      asked := map_resp_append h.asked command selectedDb
      conserved := ?_
      replies := ?_
      refused := fun _ => .inl (h.length.symm.trans hn) }
    · simp only [List.map_append, List.map_cons, List.map_nil, ← Multiset.coe_add, hconserved,
        LuaPool.pending, add_assoc]
    · change _ = p.answered + _
      simp only [List.map_append, ← Multiset.coe_add, h.replies, List.map_cons, List.map_nil]
      abel
  next hn =>
    refine { h with
      dispatching := fun e he => ?_
      asked := map_resp_append h.asked command selectedDb
      conserved := ?_ }
    · rcases List.mem_append.mp he with he | he
      · exact h.dispatching e he
      · rw [List.mem_singleton.mp he, ← h.length]
        exact Nat.mod_lt _ (Nat.pos_of_ne_zero hn)
    · simp only [LuaPool.pending, List.map_append, List.map_cons, List.map_nil, List.sum_append,
        List.sum_cons, List.sum_nil, ← Multiset.coe_add, hconserved, Multiset.coe_singleton, Dispatch.start]
      abel

theorem Reachable.sound (h : Reachable workerNum queueSize p) : p.Sound workerNum queueSize := by
  induction h with
  | start => exact pool_sound_start workerNum queueSize
  | eval _ command selectedDb random ih => exact ih.eval command selectedDb random
  | move _ hmove ih => exact ih.moves hmove

theorem mem_asked (h : p.Sound workerNum queueSize) {task : LuaTask} (hmem : task ∈ p.asked) :
    p.asked[task.resp]? = some task := by
  obtain ⟨k, hk⟩ := List.mem_iff_getElem?.mp hmem
  have hresp : (p.asked.map LuaTask.resp)[k]? = some task.resp := by rw [List.getElem?_map, hk]; rfl
  rw [h.asked, List.getElem?_range (List.getElem?_eq_some_iff.mp hk).1, Option.some_inj] at hresp
  rw [← hresp, hk]

theorem LuaPool.Sound.nodup_replies (h : p.Sound workerNum queueSize) :
    (p.replies.map (fun a => a.1.resp)).Nodup := by
  have hle : (↑(p.replies.map Prod.fst) : Multiset LuaTask) ≤ ↑p.asked := by
    rw [h.conserved]
    exact Multiset.le_add_left _ _
  have hasked : (p.asked.map LuaTask.resp).Nodup := by
    rw [h.asked]
    exact List.nodup_range
  have hnodup := Multiset.nodup_of_le (Multiset.map_le_map hle) (Multiset.coe_nodup.mpr hasked)
  rw [Multiset.map_coe, Multiset.coe_nodup, List.map_map] at hnodup
  exact hnodup

/-- Every answer is what a run gave, the word of a thread that died, or the refusal. -/
theorem LuaPool.Sound.perm_replies (h : p.Sound workerNum queueSize) :
    p.replies.Perm (p.senders.flatMap LuaWorker.ran ++
      (p.senders.flatMap LuaWorker.lost).map (fun task => (task, evalLost)) ++
      p.refused.map (fun task => (task, evalRefused))) := by
  have hsum : ∀ senders : List LuaWorker, (senders.map LuaWorker.answered).sum =
      (↑(senders.flatMap LuaWorker.ran) : Multiset (LuaTask × EvalResult)) +
        ↑((senders.flatMap LuaWorker.lost).map (fun task => (task, evalLost))) := by
    intro senders
    induction senders with
    | nil => rfl
    | cons w senders ih =>
        simp only [List.map_cons, List.sum_cons, ih, List.flatMap_cons, List.map_append, ← Multiset.coe_add,
          LuaWorker.answered]
        abel
  refine Multiset.coe_eq_coe.mp ?_
  rw [h.replies, LuaPool.answered, hsum, Multiset.coe_add, Multiset.coe_add]

/-- Whatever the order of the steps, no EVAL is lost and none is answered twice. Each is run to
its end at most once, by one thread, and its client gets what that run gave; unless the
thread died before that end, which the client is told, or there was no live thread to take
it. A thread comes to its tasks in the order in which they came into its channel, which
never holds too many. -/
theorem eval_runs_once (h : Reachable workerNum queueSize p) :
    (p.asked : Multiset LuaTask) = p.pending + ↑(p.replies.map Prod.fst) ∧
    (p.replies.map (fun a => a.1.resp)).Nodup ∧
    ((p.senders.flatMap LuaWorker.ran).map Prod.fst ++ p.senders.flatMap LuaWorker.lost ++ p.refused).Nodup ∧
    (∀ task result, (task, result) ∈ p.replies → p.asked[task.resp]? = some task ∧
      ((∃ w ∈ p.senders, (task, result) ∈ w.ran) ∨
        (∃ w ∈ p.senders, task ∈ w.lost ∧ w.thread = .dead ∧ result = evalLost) ∨
        task ∈ p.refused ∧ result = evalRefused ∧ (workerNum = 0 ∨ ∃ w ∈ p.senders, w.thread = .dead))) ∧
    ∀ w ∈ p.senders, w.channel.queue.length ≤ queueSize ∧
      w.sent = w.ran.map Prod.fst ++ w.lost ++ w.task.toList ++ w.channel.queue := by
  have hs := h.sound
  have hperm := hs.perm_replies
  refine ⟨hs.conserved, hs.nodup_replies, ?_, ?_, ?_⟩
  · have hnodup := ((hperm.map (fun a => a.1.resp)).nodup_iff).mp hs.nodup_replies
    refine List.Nodup.of_map LuaTask.resp ?_
    simpa only [List.map_append, List.map_map, Function.comp_def] using hnodup
  · intro task result hmem
    have hasked : task ∈ p.asked := by
      rw [← Multiset.mem_coe, hs.conserved]
      exact Multiset.mem_add.mpr (.inr (List.mem_map_of_mem (f := Prod.fst) hmem))
    refine ⟨mem_asked hs hasked, ?_⟩
    rcases List.mem_append.mp (hperm.mem_iff.mp hmem) with hmem | hmem
    · rcases List.mem_append.mp hmem with hran | hlost
      · exact .inl (List.mem_flatMap.mp hran)
      · obtain ⟨_, hdropped, hpair⟩ := List.mem_map.mp hlost
        obtain ⟨rfl, rfl⟩ := Prod.mk.inj hpair
        obtain ⟨w, hw, hmem⟩ := List.mem_flatMap.mp hdropped
        exact .inr (.inl ⟨w, hw, hmem, (hs.senders w hw).lost (List.ne_nil_of_mem hmem), rfl⟩)
    · obtain ⟨_, hrefused, hpair⟩ := List.mem_map.mp hmem
      obtain ⟨rfl, rfl⟩ := Prod.mk.inj hpair
      exact .inr (.inr ⟨hrefused, rfl, hs.refused (List.ne_nil_of_mem hrefused)⟩)
  · intro w hw
    exact ⟨(hs.senders w hw).channel.length_le, (hs.senders w hw).order⟩

def sampleCommand : EvalCommand := ⟨.ofAscii (ascii ['r', 'e', 't', 'u', 'r', 'n']) (by decide), [], []⟩

def sampleTask (resp : Nat) : LuaTask := ⟨resp, sampleCommand, Fin.last 15⟩

/-- One thread with room for one task, and two EVALs. -/
def sampleStart : LuaPool :=
  ((startMultiLuaActor 1 1).eval sampleCommand (Fin.last 15) 5).eval sampleCommand (Fin.last 15) 2

def samplePool (w : LuaWorker) (replies : List (LuaTask × EvalResult)) : LuaPool :=
  ⟨[w], [], [sampleTask 0, sampleTask 1], [], replies⟩

/-- The thread has run the first EVAL and has died at the second. -/
def sampleEnd : LuaPool :=
  samplePool ⟨.new 1, .dead, none, [sampleTask 0, sampleTask 1], [(sampleTask 0, .ok .null)], [sampleTask 1]⟩
    [(sampleTask 0, .ok .null), (sampleTask 1, evalLost)]

def sampleRun : List LuaPool :=
  let second : Dispatch := ⟨sampleTask 1, 0, 0, 1, 1⟩
  let answer : LuaTask × EvalResult := (sampleTask 0, .ok .null)
  let both := [sampleTask 0, sampleTask 1]
  [⟨[⟨⟨0, [], [sampleTask 0], [], 0⟩, .serving, none, [], [], []⟩], [second], both, [], []⟩,
    ⟨[⟨⟨0, [], [], [sampleTask 0], 0⟩, .serving, none, [sampleTask 0], [], []⟩], [second], both, [], []⟩,
    samplePool ⟨⟨0, [sampleTask 1], [], [sampleTask 0], 0⟩, .serving, none, [sampleTask 0], [], []⟩ [],
    samplePool ⟨⟨0, [sampleTask 1], [], [], 1⟩, .serving, some (sampleTask 0), [sampleTask 0], [], []⟩ [],
    samplePool ⟨⟨0, [], [sampleTask 1], [], 0⟩, .serving, some (sampleTask 0), [sampleTask 0], [], []⟩ [],
    samplePool ⟨⟨0, [], [sampleTask 1], [], 0⟩, .serving, none, [sampleTask 0], [answer], []⟩ [answer],
    samplePool ⟨⟨0, [], [], [sampleTask 1], 0⟩, .serving, none, both, [answer], []⟩ [answer],
    samplePool ⟨⟨0, [], [], [], 1⟩, .serving, some (sampleTask 1), both, [answer], []⟩ [answer],
    samplePool ⟨.new 1, .serving, some (sampleTask 1), both, [answer], []⟩ [answer],
    sampleEnd]

theorem sampleRun_moves : List.IsChain LuaPool.Moves (sampleStart :: sampleRun) := by
  refine .cons_cons (LuaPool.Moves.send (j := 0) (d := ⟨sampleTask 0, 0, 0, 1, 1⟩) (w := .start 1)
    rfl (Nat.le_refl 1) rfl nofun) ?_
  refine .cons_cons (LuaPool.Moves.channel (i := 0) rfl (LuaWorker.Moves.push (i := 0) rfl)) ?_
  refine .cons_cons (LuaPool.Moves.send (j := 0) (d := ⟨sampleTask 1, 0, 0, 1, 1⟩)
    (w := ⟨⟨0, [], [], [sampleTask 0], 0⟩, .serving, none, [sampleTask 0], [], []⟩)
    rfl (Nat.le_refl 1) rfl nofun) ?_
  refine .cons_cons (LuaPool.Moves.channel (i := 0) rfl (LuaWorker.Moves.recv rfl rfl rfl)) ?_
  refine .cons_cons (LuaPool.Moves.channel (i := 0) rfl (LuaWorker.Moves.release rfl)) ?_
  refine .cons_cons (@LuaPool.Moves.reply _ 0
    ⟨⟨0, [], [sampleTask 1], [], 0⟩, .serving, some (sampleTask 0), [sampleTask 0], [], []⟩ (sampleTask 0)
    (.ok .null) rfl rfl rfl rfl) ?_
  refine .cons_cons (LuaPool.Moves.channel (i := 0) rfl (LuaWorker.Moves.push (i := 0) rfl)) ?_
  refine .cons_cons (LuaPool.Moves.channel (i := 0) rfl (LuaWorker.Moves.recv rfl rfl rfl)) ?_
  refine .cons_cons (LuaPool.Moves.channel (i := 0) rfl (LuaWorker.Moves.release rfl)) ?_
  exact .cons_cons (@LuaPool.Moves.die _ 0 ⟨.new 1, .serving, some (sampleTask 1),
    [sampleTask 0, sampleTask 1], [(sampleTask 0, .ok .null)], []⟩ rfl rfl rfl) (.singleton _)

theorem reachable_of_chain {run : List LuaPool} (h : Reachable workerNum queueSize p)
    (hrun : List.IsChain LuaPool.Moves (p :: run)) :
    ∀ q ∈ run, Reachable workerNum queueSize q := by
  induction run generalizing p with
  | nil => exact nofun
  | cons p₁ run ih =>
      rw [List.isChain_cons_cons] at hrun
      have hnext := h.move hrun.1
      intro q hq
      rcases List.mem_cons.mp hq with rfl | hq
      · exact hnext
      · exact ih hnext hrun.2 q hq

theorem eval_runs_once_sample :
    (sampleEnd.asked : Multiset LuaTask) = sampleEnd.pending + ↑(sampleEnd.replies.map Prod.fst) ∧
    ((sampleEnd.senders.flatMap LuaWorker.ran).map Prod.fst ++ sampleEnd.senders.flatMap LuaWorker.lost ++
      sampleEnd.refused).Nodup := by
  have hstart : Reachable 1 1 sampleStart := (Reachable.start.eval _ _ _).eval _ _ _
  have hend := reachable_of_chain hstart sampleRun_moves sampleEnd (by simp [sampleRun])
  obtain ⟨hplaces, -, honce, -, -⟩ := eval_runs_once hend
  exact ⟨hplaces, honce⟩

end Pool

section Burst

variable {workerNum queueSize n : Nat} {capacity : Nat → Nat} {p : LuaPool} {d : Dispatch}

/-- The loop of `dispatch` when nothing else happens meanwhile. -/
def Dispatch.loop (d : Dispatch) (n : Nat) (capacity : Nat → Nat) : Dispatch :=
  (fun d => Dispatch.look d n capacity)^[n - 1] d

/-- A client with a task sends it and, when there is a place, puts it there. -/
def LuaWorker.enqueue (w : LuaWorker) (task : LuaTask) : LuaWorker :=
  match (w.channel.reserve task).push w.channel.granted.length with
  | some (task, c) => { w with channel := c, sent := w.sent ++ [task] }
  | none => w.reserve task

/-- A client executes EVAL, and its task is sent before anything else happens. No thread has
died. -/
def LuaPool.evalAlone (p : LuaPool) (command : EvalCommand) (selectedDb : Fin 16) (random : Nat) : LuaPool :=
  let task : LuaTask := ⟨p.asked.length, command, selectedDb⟩
  let n := p.senders.length
  let d := (Dispatch.start task (random % n) p.capacity).loop n p.capacity
  match p.senders[d.bestIndex]? with
  | some w => { p with
      asked := p.asked ++ [task]
      senders := p.senders.set d.bestIndex (w.enqueue task) }
  | none => p.eval command selectedDb random

/-- What the loop knows before look `k`. -/
structure Dispatch.Best (n : Nat) (capacity : Nat → Nat) (d : Dispatch) : Prop where
  index : d.bestIndex < n
  max : d.maxCapacity = capacity d.bestIndex
  seen : ∀ m < d.k, capacity ((d.offset + m) % n) ≤ d.maxCapacity

theorem best_start (capacity : Nat → Nat) (task : LuaTask) {offset : Nat} (h : offset < n) :
    (Dispatch.start task offset capacity).Best n capacity where
  index := h
  max := rfl
  seen m hm := by
    have hzero : m = 0 := Nat.lt_one_iff.mp hm
    simp only [Dispatch.start, hzero, Nat.add_zero, Nat.mod_eq_of_lt h, Nat.le_refl]

theorem Dispatch.Best.look (h : d.Best n capacity) : (d.look n capacity).Best n capacity := by
  have hpos : 0 < n := Nat.zero_lt_of_lt h.index
  unfold Dispatch.look
  dsimp only
  split
  next hlt =>
    refine ⟨Nat.mod_lt _ hpos, rfl, fun m hm => ?_⟩
    rcases Nat.lt_succ_iff_lt_or_eq.mp hm with hm | rfl
    · exact (h.seen m hm).trans hlt.le
    · exact Nat.le_refl _
  next hle =>
    refine ⟨h.index, h.max, fun m hm => ?_⟩
    rcases Nat.lt_succ_iff_lt_or_eq.mp hm with hm | rfl
    · exact h.seen m hm
    · exact Nat.le_of_not_lt hle

theorem best_iterate (h : d.Best n capacity) (turns : Nat) :
    let e := (fun d => Dispatch.look d n capacity)^[turns] d
    e.Best n capacity ∧ e.k = d.k + turns ∧ e.offset = d.offset ∧ e.task = d.task := by
  induction turns generalizing d with
  | zero => exact ⟨h, rfl, rfl, rfl⟩
  | succ turns ih =>
      obtain ⟨hbest, hk, hoffset, htask⟩ := ih h.look
      rw [look_k] at hk
      rw [look_offset] at hoffset
      rw [look_task] at htask
      exact ⟨hbest, by rw [Function.iterate_succ_apply, hk]; omega, hoffset, htask⟩

/-- `dispatch` finds a thread with the most room. -/
theorem loop_greatest (capacity : Nat → Nat) (task : LuaTask) {offset : Nat} (h : offset < n) :
    let d := (Dispatch.start task offset capacity).loop n capacity
    d.bestIndex < n ∧ ∀ i < n, capacity i ≤ capacity d.bestIndex := by
  obtain ⟨hbest, hk, hoffset, -⟩ := best_iterate (best_start capacity task h) (n - 1)
  refine ⟨hbest.index, fun i hi => ?_⟩
  -- the turn that looks at i
  have hturn : (offset + (i + n - offset) % n) % n = i := by
    rw [Nat.add_mod_mod, Nat.add_sub_cancel' (by omega), Nat.add_mod_right, Nat.mod_eq_of_lt hi]
  have hlt : (i + n - offset) % n < n := Nat.mod_lt _ (by omega)
  have hseen := hbest.seen ((i + n - offset) % n) (by rw [hk]; change _ < 1 + (n - 1); omega)
  rw [hoffset, hbest.max, Dispatch.start, hturn] at hseen
  exact hseen

theorem reachable_looks (h : Reachable workerNum queueSize p) (hn : p.senders.length ≠ 0)
    (command : EvalCommand) (selectedDb : Fin 16) (random turns : Nat)
    (hturns : turns ≤ p.senders.length - 1) :
    Reachable workerNum queueSize { p with
      asked := p.asked ++ [⟨p.asked.length, command, selectedDb⟩]
      dispatching := p.dispatching ++ [(fun d => Dispatch.look d p.senders.length p.capacity)^[turns]
        (.start ⟨p.asked.length, command, selectedDb⟩ (random % p.senders.length) p.capacity)] } := by
  induction turns with
  | zero =>
      have heval := h.eval command selectedDb random
      unfold LuaPool.eval at heval
      dsimp only at heval
      rw [if_neg hn] at heval
      exact heval
  | succ turns ih =>
      have hstart := best_start p.capacity
        ⟨p.asked.length, command, selectedDb⟩ (Nat.mod_lt random (Nat.pos_of_ne_zero hn))
      have hk := (best_iterate hstart turns).2.1
      have hnext := (ih (by omega)).move (.look List.getElem?_concat_length (by
        rw [hk]
        change 1 + turns < p.senders.length
        omega))
      rw [LuaPool.look, List.set_append_right _ _ (Nat.le_refl _), Nat.sub_self,
        List.set_cons_zero] at hnext
      rw [Function.iterate_succ_apply']
      exact hnext

theorem reachable_evalAlone (h : Reachable workerNum queueSize p)
    (hserving : ∀ w ∈ p.senders, w.thread = .serving) (command : EvalCommand)
    (selectedDb : Fin 16) (random : Nat) :
    Reachable workerNum queueSize (p.evalAlone command selectedDb random) := by
  unfold LuaPool.evalAlone
  dsimp only
  split
  next w hw =>
    have hn : p.senders.length ≠ 0 := by
      intro hzero
      rw [List.length_eq_zero_iff.mp hzero] at hw
      cases hw
    have hstart := best_start p.capacity
      ⟨p.asked.length, command, selectedDb⟩ (Nat.mod_lt random (Nat.pos_of_ne_zero hn))
    obtain ⟨-, hk, -, htask⟩ := best_iterate hstart (p.senders.length - 1)
    have hsend := (reachable_looks h hn command selectedDb random _ (Nat.le_refl _)).move
      (.send List.getElem?_concat_length (by
        rw [hk]
        change p.senders.length ≤ 1 + (p.senders.length - 1)
        omega) hw (by simp [hserving w (List.mem_of_getElem? hw)]))
    rw [LuaPool.send, htask, List.eraseIdx_append_of_length_le (Nat.le_refl _), Nat.sub_self,
      List.eraseIdx_cons_zero, List.append_nil] at hsend
    unfold LuaWorker.enqueue
    split
    next task c hc =>
      have hmove := hsend.move (.channel (List.getElem?_set_self (List.getElem?_eq_some_iff.mp hw).1)
        (.push hc))
      rw [LuaPool.setSender, List.set_set] at hmove
      exact hmove
    next => exact hsend
  next => exact h.eval command selectedDb random

/-- No client is under way to a channel. -/
structure LuaPool.Calm (queueSize queued : Nat) (p : LuaPool) : Prop where
  quiet : ∀ w ∈ p.senders, w.channel.waiters = [] ∧ w.channel.granted = [] ∧
    w.channel.capacity + w.channel.queue.length = queueSize
  serving : ∀ w ∈ p.senders, w.thread = .serving
  queued : (p.senders.map (fun w => w.channel.queue.length)).sum = queued
  even : ∀ w ∈ p.senders, ∀ u ∈ p.senders, w.channel.queue.length ≤ u.channel.queue.length + 1

theorem calm_start (workerNum queueSize : Nat) : (startMultiLuaActor workerNum queueSize).Calm queueSize 0 where
  quiet w hw := by
    rw [List.eq_of_mem_replicate hw]
    exact ⟨rfl, rfl, Nat.add_zero queueSize⟩
  serving w hw := by
    rw [List.eq_of_mem_replicate hw]
    rfl
  queued := by simp [startMultiLuaActor, LuaWorker.start, Channel.new]
  even w hw u hu := by
    rw [List.eq_of_mem_replicate hw]
    exact Nat.zero_le _

theorem enqueue_thread (w : LuaWorker) (task : LuaTask) : (w.enqueue task).thread = w.thread := by
  unfold LuaWorker.enqueue
  split <;> rfl

theorem enqueue_channel {w : LuaWorker} (task : LuaTask) (hgranted : w.channel.granted = [])
    (hroom : w.channel.capacity ≠ 0) :
    (w.enqueue task).channel = { w.channel with
      capacity := w.channel.capacity - 1, queue := w.channel.queue ++ [task] } := by
  simp [LuaWorker.enqueue, Channel.reserve, Channel.push, hroom, hgranted]

theorem capacity_eq {i : Nat} {w : LuaWorker} (hw : p.senders[i]? = some w) :
    p.capacity i = w.channel.capacity := by
  simp only [LuaPool.capacity, hw]

/-- The thread with the most room has the shortest queue. -/
theorem LuaPool.Calm.shortest {queued i : Nat} {w : LuaWorker} (h : p.Calm queueSize queued)
    (hw : p.senders[i]? = some w) (hmost : ∀ j < p.senders.length, p.capacity j ≤ p.capacity i) :
    ∀ u ∈ p.senders, w.channel.queue.length ≤ u.channel.queue.length := by
  intro u hu
  obtain ⟨j, hj⟩ := List.mem_iff_getElem?.mp hu
  have hle := hmost j (List.getElem?_eq_some_iff.mp hj).1
  rw [capacity_eq hj, capacity_eq hw] at hle
  have hplaces := (h.quiet w (List.mem_of_getElem? hw)).2.2
  have hothers := (h.quiet u hu).2.2
  omega

/-- With room somewhere, the shortest queue has room. -/
theorem LuaPool.Calm.room {queued : Nat} {w : LuaWorker} (h : p.Calm queueSize queued)
    (hroom : queued < p.senders.length * queueSize) (hw : w ∈ p.senders)
    (hshort : ∀ u ∈ p.senders, w.channel.queue.length ≤ u.channel.queue.length) :
    w.channel.capacity ≠ 0 := by
  intro hzero
  have hplaces := (h.quiet w hw).2.2
  have hfull : ∀ x ∈ p.senders.map (fun u => u.channel.queue.length), queueSize ≤ x := by
    intro x hx
    obtain ⟨u, hu, rfl⟩ := List.mem_map.mp hx
    have hle := hshort u hu
    omega
  have hsum := List.card_nsmul_le_sum _ _ hfull
  rw [List.length_map, h.queued, nsmul_eq_mul] at hsum
  simp only [Nat.cast_id] at hsum
  omega

/-- As long as there is room somewhere, an EVAL goes where there is most. -/
theorem LuaPool.Calm.evalAlone {queued : Nat} (h : p.Calm queueSize queued)
    (hroom : queued < p.senders.length * queueSize) (command : EvalCommand) (selectedDb : Fin 16)
    (random : Nat) : (p.evalAlone command selectedDb random).Calm queueSize (queued + 1) ∧
      (p.evalAlone command selectedDb random).senders.length = p.senders.length := by
  have hn : 0 < p.senders.length := Nat.pos_of_mul_pos_right (Nat.zero_lt_of_lt hroom)
  obtain ⟨hbest, hmost⟩ := loop_greatest p.capacity ⟨p.asked.length, command, selectedDb⟩
    (Nat.mod_lt random hn)
  unfold LuaPool.evalAlone
  dsimp only
  generalize (Dispatch.start ⟨p.asked.length, command, selectedDb⟩ (random % p.senders.length)
    p.capacity).loop p.senders.length p.capacity = d at hbest hmost ⊢
  obtain ⟨w, hw⟩ : ∃ w, p.senders[d.bestIndex]? = some w := ⟨_, List.getElem?_eq_getElem hbest⟩
  have hmem : w ∈ p.senders := List.mem_of_getElem? hw
  obtain ⟨hwaiters, hgranted, hplaces⟩ := h.quiet w hmem
  have hshort := h.shortest hw hmost
  have hfree := h.room hroom hmem hshort
  have hchannel := enqueue_channel ⟨p.asked.length, command, selectedDb⟩ hgranted hfree
  have hlength : (w.enqueue ⟨p.asked.length, command, selectedDb⟩).channel.queue.length =
      w.channel.queue.length + 1 := by simp [hchannel]
  rw [hw]
  dsimp only
  refine ⟨⟨?_, ?_, ?_, ?_⟩, List.length_set⟩
  · intro u hu
    rcases List.mem_or_eq_of_mem_set hu with hu | rfl
    · exact h.quiet u hu
    · rw [hchannel]
      refine ⟨hwaiters, hgranted, ?_⟩
      simp only [List.length_append, List.length_singleton]
      omega
  · intro u hu
    rcases List.mem_or_eq_of_mem_set hu with hu | rfl
    · exact h.serving u hu
    · rw [enqueue_thread]
      exact h.serving w hmem
  · have hsum := sum_map_set (fun w : LuaWorker => w.channel.queue.length) hw
      (w.enqueue ⟨p.asked.length, command, selectedDb⟩)
    simp only [hlength, h.queued] at hsum
    dsimp only
    omega
  · intro u hu v hv
    rcases List.mem_or_eq_of_mem_set hu with hu | rfl <;> rcases List.mem_or_eq_of_mem_set hv with hv | rfl
    · exact h.even u hu v hv
    · have hle := h.even u hu w hmem
      omega
    · have hle := hshort v hv
      omega
    · omega

/-- EVALs that come one at a time, faster than the threads take them, are spread evenly. While
there is room none waits, and no channel holds two more than another. -/
theorem burst_balanced (requests : List (EvalCommand × Fin 16 × Nat))
    (hroom : requests.length ≤ workerNum * queueSize) :
    let p := requests.foldl (fun p r => LuaPool.evalAlone p r.1 r.2.1 r.2.2)
      (startMultiLuaActor workerNum queueSize)
    Reachable workerNum queueSize p ∧
    (p.senders.map (fun w => w.channel.queue.length)).sum = requests.length ∧
    (∀ w ∈ p.senders, w.channel.waiters = []) ∧
    ∀ w ∈ p.senders, ∀ u ∈ p.senders, w.channel.queue.length ≤ u.channel.queue.length + 1 := by
  have hrun : ∀ k ≤ requests.length,
      let p := (requests.take k).foldl (fun p r => LuaPool.evalAlone p r.1 r.2.1 r.2.2)
        (startMultiLuaActor workerNum queueSize)
      Reachable workerNum queueSize p ∧ p.Calm queueSize k := by
    intro k hk
    induction k with
    | zero => exact ⟨.start, calm_start workerNum queueSize⟩
    | succ k ih =>
        obtain ⟨hreachable, hcalm⟩ := ih (by omega)
        rw [List.take_succ_eq_append_getElem hk, List.foldl_append, List.foldl_cons, List.foldl_nil]
        refine ⟨reachable_evalAlone hreachable hcalm.serving _ _ _, ?_⟩
        refine (hcalm.evalAlone ?_ _ _ _).1
        rw [hreachable.sound.length]
        omega
  obtain ⟨hreachable, hcalm⟩ := hrun requests.length (Nat.le_refl _)
  rw [List.take_length] at hreachable hcalm
  exact ⟨hreachable, hcalm.queued, fun w hw => (hcalm.quiet w hw).1, hcalm.even⟩

theorem burst_balanced_sample :
    let p := [(sampleCommand, Fin.last 15, 5), (sampleCommand, Fin.last 15, 2), (sampleCommand, Fin.last 15, 4)].foldl
      (fun p r => LuaPool.evalAlone p r.1 r.2.1 r.2.2) (startMultiLuaActor 2 2)
    (p.senders.map (fun w => w.channel.queue.length)).sum = 3 ∧
    ∀ w ∈ p.senders, ∀ u ∈ p.senders, w.channel.queue.length ≤ u.channel.queue.length + 1 := by
  have h := @burst_balanced 2 2
    [(sampleCommand, Fin.last 15, 5), (sampleCommand, Fin.last 15, 2), (sampleCommand, Fin.last 15, 4)] (by decide)
  exact ⟨h.2.1, h.2.2.2⟩

end Burst

end RustKv.LuaRouter
