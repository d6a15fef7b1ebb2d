import Mathlib.Data.Fintype.Card
import RustKv.Broadcast
import RustKv.Replication
import RustKv.Runs

namespace RustKv.Feeds

open Text Broadcast Replication

variable {ι κ : Type} [DecidableEq ι] [DecidableEq κ] [Fintype κ]

/-- Where a send_aof is with one record. -/
inductive Sending
  | idle
  | logged (bytes : Bytes)
  | counted (bytes : Bytes)

def Sending.inFlight : Sending → List Bytes
  | .idle => []
  | .logged bytes => [bytes]
  | .counted bytes => [bytes]

/-- Where handle_slave_psync is with one slave. -/
inductive FeedPhase
  | absent
  | counted
  | subscribed
  | waiting
  | writing (bytes : Bytes)
  | leaving
  | uncounted
  | gone

def FeedPhase.isCounted : FeedPhase → Bool
  | .counted | .subscribed | .waiting | .writing _ | .leaving => true
  | _ => false

def FeedPhase.isFresh : FeedPhase → Bool
  | .absent | .counted | .subscribed => true
  | _ => false

/-- The receiver exists; it is dropped on return, after sub_slave_count. -/
def FeedPhase.listens : FeedPhase → Bool
  | .subscribed | .waiting | .writing _ | .leaving | .uncounted => true
  | _ => false

/-- One slave. `socket` is what its socket has taken, and `broken` that a write to it has
failed. The last four fields are history: where it subscribed, how long the log was and
which records were in flight then, and what its receiver returned. -/
structure Feed (ι : Type) where
  phase : FeedPhase
  next : Nat
  socket : Bytes
  broken : Bool
  since : Nat
  aofSince : Nat
  early : ι → Sending
  results : List (RecvResult (ι × Bytes))

def Feed.new : Feed ι := ⟨.absent, 0, [], false, 0, 0, fun _ => .idle, []⟩

/-- REPLICATION_HUB, SLAVE_COUNT, the log, and all who use them. In a lane one record is
sent after the other: the commands of one connection, or those that log under the lock of
one shard. `sent` are the values of the hub, from the start. -/
structure System (ι κ : Type) where
  hub : Hub (ι × Bytes)
  sent : List (ι × Bytes)
  slaveCount : UInt64
  aof : List (ι × Bytes)
  sending : ι → Sending
  feeds : κ → Feed ι

def System.new (capacity : Nat) : System ι κ :=
  ⟨.new capacity, [], 0, [], fun _ => .idle, fun _ => .new⟩

def System.receiverCount (s : System ι κ) : Nat :=
  (Finset.univ.filter (fun k => (s.feeds k).phase.listens = true)).card

def System.goto (s : System ι κ) (lane : ι) (x : Sending) : System ι κ :=
  { s with sending := Function.update s.sending lane x }

def System.setFeed (s : System ι κ) (k : κ) (f : Feed ι) : System ι κ :=
  { s with feeds := Function.update s.feeds k f }

inductive Step : System ι κ → System ι κ → Prop
  | log {s : System ι κ} (lane : ι) (bytes : Bytes) (hsending : s.sending lane = .idle) :
      Step s { s.goto lane (.logged bytes) with aof := s.aof ++ [(lane, bytes)] }
  | count {s : System ι κ} (lane : ι) {bytes : Bytes} (hsending : s.sending lane = .logged bytes) :
      Step s (s.goto lane (if s.receiverCount > 0 then .counted bytes else .idle))
  | send {s : System ι κ} (lane : ι) {bytes : Bytes} (hsending : s.sending lane = .counted bytes)
      (hreceiver : 0 < s.receiverCount) :
      Step s { s.goto lane .idle with hub := s.hub.send (lane, bytes), sent := s.sent ++ [(lane, bytes)] }
  | sendFails {s : System ι κ} (lane : ι) {bytes : Bytes} (hsending : s.sending lane = .counted bytes)
      (hreceiver : s.receiverCount = 0) : Step s (s.goto lane .idle)
  | connect {s : System ι κ} (k : κ) (hphase : (s.feeds k).phase = .absent) :
      Step s { s.setFeed k { s.feeds k with phase := .counted } with slaveCount := s.slaveCount + 1 }
  | subscribe {s : System ι κ} (k : κ) (hphase : (s.feeds k).phase = .counted) :
      Step s (s.setFeed k { s.feeds k with
        phase := .subscribed, next := s.hub.tail, since := s.hub.tail, aofSince := s.aof.length,
        early := s.sending })
  | greet {s : System ι κ} (k : κ) (hphase : (s.feeds k).phase = .subscribed) :
      Step s (s.setFeed k { s.feeds k with
        phase := .waiting, socket := (s.feeds k).socket ++ okResp })
  | greetFails {s : System ι κ} (k : κ) {part : Bytes} (hphase : (s.feeds k).phase = .subscribed)
      (hpart : part <+: okResp) :
      Step s (s.setFeed k { s.feeds k with
        phase := .waiting, socket := (s.feeds k).socket ++ part, broken := true })
  | recv {s : System ι κ} (k : κ) {lane : ι} {bytes : Bytes} (hphase : (s.feeds k).phase = .waiting)
      (hvalue : (s.hub.recv (s.feeds k).next).1 = .value (lane, bytes)) :
      Step s (s.setFeed k { s.feeds k with
        phase := .writing bytes, next := (s.hub.recv (s.feeds k).next).2,
        results := (s.feeds k).results ++ [(s.hub.recv (s.feeds k).next).1] })
  | lagged {s : System ι κ} (k : κ) {skipped : Nat} (hphase : (s.feeds k).phase = .waiting)
      (hlagged : (s.hub.recv (s.feeds k).next).1 = .lagged skipped) :
      Step s (s.setFeed k { s.feeds k with
        next := (s.hub.recv (s.feeds k).next).2,
        results := (s.feeds k).results ++ [(s.hub.recv (s.feeds k).next).1] })
  | write {s : System ι κ} (k : κ) {bytes : Bytes} (hphase : (s.feeds k).phase = .writing bytes)
      (hsocket : (s.feeds k).broken = false) :
      Step s (s.setFeed k { s.feeds k with
        phase := .waiting, socket := (s.feeds k).socket ++ bytes })
  | writeFails {s : System ι κ} (k : κ) {bytes part : Bytes} (hphase : (s.feeds k).phase = .writing bytes)
      (hpart : part <+: bytes) (hbroken : (s.feeds k).broken = true → part = []) :
      Step s (s.setFeed k { s.feeds k with
        phase := .leaving, socket := (s.feeds k).socket ++ part, broken := true })
  | shutdown {s : System ι κ} (k : κ) (hphase : (s.feeds k).phase = .waiting) :
      Step s (s.setFeed k { s.feeds k with phase := .leaving })
  | leave {s : System ι κ} (k : κ) (hphase : (s.feeds k).phase = .leaving) :
      Step s { s.setFeed k { s.feeds k with phase := .uncounted } with slaveCount := s.slaveCount - 1 }
  | drop {s : System ι κ} (k : κ) (hphase : (s.feeds k).phase = .uncounted) :
      Step s (s.setFeed k { s.feeds k with phase := .gone })

def ofLane (lane : ι) (records : List (ι × Bytes)) : List Bytes :=
  (records.filter (fun r => r.1 == lane)).map Prod.snd

/-- What a slave is meant to get of a lane: the record in flight when it subscribed, and
what the log got since. -/
def Feed.source (f : Feed ι) (aof : List (ι × Bytes)) (lane : ι) : List Bytes :=
  (f.early lane).inFlight ++ ofLane lane (aof.drop f.aofSince)

def streamOf (results : List (RecvResult (ι × Bytes))) : Bytes :=
  handleSlavePsync ((delivered results).map Prod.snd)

omit [DecidableEq ι] in
theorem streamOf_nil : streamOf ([] : List (RecvResult (ι × Bytes))) = okResp := List.append_nil okResp

omit [DecidableEq ι] in
theorem streamOf_value (results : List (RecvResult (ι × Bytes))) (lane : ι) (bytes : Bytes) :
    streamOf (results ++ [.value (lane, bytes)]) = streamOf results ++ bytes := by
  simp [streamOf, handleSlavePsync, delivered_append, delivered]

omit [DecidableEq ι] in
theorem streamOf_lagged (results : List (RecvResult (ι × Bytes))) (n : Nat) :
    streamOf (results ++ [.lagged n]) = streamOf results := by
  simp [streamOf, delivered_append, delivered]

theorem ofLane_append (lane : ι) (records more : List (ι × Bytes)) :
    ofLane lane (records ++ more) = ofLane lane records ++ ofLane lane more := by
  rw [ofLane, List.filter_append, List.map_append]
  rfl

theorem ofLane_self (lane : ι) (bytes : Bytes) : ofLane lane [(lane, bytes)] = [bytes] := by
  simp [ofLane]

theorem ofLane_other {lane other : ι} (h : other ≠ lane) (bytes : Bytes) :
    ofLane lane [(other, bytes)] = [] := by
  simp [ofLane, h]

theorem ofLane_sublist (lane : ι) {records more : List (ι × Bytes)} (h : records.Sublist more) :
    (ofLane lane records).Sublist (ofLane lane more) :=
  (h.filter _).map _

theorem ofLane_isPrefix (lane : ι) {records more : List (ι × Bytes)} (h : records <+: more) :
    ofLane lane records <+: ofLane lane more := by
  obtain ⟨rest, rfl⟩ := h
  rw [ofLane_append]
  exact List.prefix_append _ _

/-- The receiver of a slave that has subscribed, in the order of its lane. -/
structure Feed.Tracks (s : System ι κ) (f : Feed ι) : Prop where
  follows : Follows s.sent f.since f.next f.results
  aof : f.aofSince ≤ s.aof.length
  ordered : ∀ lane, (ofLane lane (delivered f.results)).Sublist (f.source s.aof lane)
  complete : skipped f.results = 0 → ∀ lane, ofLane lane (delivered f.results) <+: f.source s.aof lane
  alive : f.phase.listens = true → ∀ lane,
    ofLane lane (s.sent.drop f.since) ++ (s.sending lane).inFlight = f.source s.aof lane

/-- What is on the socket of a slave, by the place in the code. -/
structure Feed.Written (f : Feed ι) : Prop where
  stream : f.socket <+: streamOf f.results
  fresh : f.phase.isFresh = true → f.socket = [] ∧ f.results = [] ∧ f.broken = false
  waiting : f.phase = .waiting → f.broken = false → f.socket = streamOf f.results
  writing : ∀ bytes, f.phase = .writing bytes → ∃ before, streamOf f.results = before ++ bytes ∧
    (f.broken = false → f.socket = before) ∧ f.socket <+: before

def Feed.began (f : Feed ι) : Bool :=
  match f.phase with
  | .absent | .counted => false
  | _ => true

structure System.Sound (s : System ι κ) : Prop where
  hub : s.hub.Holds s.sent
  count : s.slaveCount =
    UInt64.ofNat (Finset.univ.filter (fun k => (s.feeds k).phase.isCounted = true)).card
  tracks : ∀ k, (s.feeds k).began = true → (s.feeds k).Tracks s
  written : ∀ k, (s.feeds k).Written

section Tracks

variable {s s' : System ι κ} {f : Feed ι}

omit [DecidableEq κ] [Fintype κ] in
/-- While it listens, what it was sent so far is what it is meant to get. -/
theorem tracks_of_alive (hfollows : Follows s.sent f.since f.next f.results)
    (haof : f.aofSince ≤ s.aof.length)
    (halive : ∀ lane, ofLane lane (s.sent.drop f.since) ++ (s.sending lane).inFlight = f.source s.aof lane) :
    f.Tracks s := by
  refine ⟨hfollows, haof, fun lane => ?_, fun hskip lane => ?_, fun _ => halive⟩
  · rw [← halive lane]
    have hsub := hfollows.ordered.trans (List.take_sublist _ _)
    exact (ofLane_sublist lane hsub).trans (List.sublist_append_left _ _)
  · rw [← halive lane, hfollows.delivered_eq hskip]
    exact (ofLane_isPrefix lane (List.take_prefix _ _)).trans (List.prefix_append _ _)

omit [DecidableEq κ] [Fintype κ] in
theorem Feed.Tracks.caughtUp (h : f.Tracks s) (hskip : skipped f.results = 0)
    (hlistens : f.phase.listens = true) (hnext : f.next = s.sent.length) {lane : ι}
    (hidle : s.sending lane = .idle) : ofLane lane (delivered f.results) = f.source s.aof lane := by
  have hall : delivered f.results = s.sent.drop f.since := by
    rw [h.follows.delivered_eq hskip, hnext, ← List.length_drop, List.take_length]
  rw [hall, ← h.alive hlistens lane, hidle]
  exact (List.append_nil _).symm

omit [DecidableEq κ] [Fintype κ] in
theorem Feed.Tracks.more (h : f.Tracks s) (more aofMore : List (ι × Bytes))
    (hsent : s'.sent = s.sent ++ more) (haof : s'.aof = s.aof ++ aofMore)
    (halive : f.phase.listens = true → ∀ lane, ofLane lane more ++ (s'.sending lane).inFlight =
      (s.sending lane).inFlight ++ ofLane lane aofMore) : f.Tracks s' := by
  have hsource : ∀ lane, f.source s'.aof lane = f.source s.aof lane ++ ofLane lane aofMore := by
    intro lane
    rw [Feed.source, Feed.source, haof, List.drop_append_of_le_length h.aof, ofLane_append,
      List.append_assoc]
  refine ⟨hsent ▸ h.follows.extend more, ?_, fun lane => ?_, fun hskip lane => ?_, fun hlistens lane => ?_⟩
  · rw [haof, List.length_append]
    exact Nat.le_trans h.aof (Nat.le_add_right _ _)
  · rw [hsource]
    exact (h.ordered lane).trans (List.sublist_append_left _ _)
  · rw [hsource]
    exact (h.complete hskip lane).trans (List.prefix_append _ _)
  · have hle : f.since ≤ s.sent.length := by
      have hcount := h.follows.count
      have hbound := h.follows.bound
      omega
    rw [hsource, ← h.alive hlistens lane, hsent, List.drop_append_of_le_length hle, ofLane_append,
      List.append_assoc, halive hlistens lane, List.append_assoc]

omit [DecidableEq κ] [Fintype κ] in
theorem Feed.Tracks.same (h : f.Tracks s) (hsent : s'.sent = s.sent) (haof : s'.aof = s.aof)
    (hsending : s'.sending = s.sending) : f.Tracks s' := by
  apply h.more [] []
  · rw [hsent, List.append_nil]
  · rw [haof, List.append_nil]
  · intro _ lane
    rw [hsending]
    simp [ofLane]

omit [DecidableEq κ] [Fintype κ] in
theorem Feed.Tracks.atPhase (h : f.Tracks s) (p : FeedPhase) (hp : p.listens = true → f.phase.listens = true)
    (socket : Bytes) (broken : Bool) :
    Feed.Tracks s { f with phase := p, socket := socket, broken := broken } :=
  ⟨h.follows, h.aof, h.ordered, h.complete, fun hlistens => h.alive (hp hlistens)⟩

omit [DecidableEq κ] [Fintype κ] in
theorem Feed.Tracks.recv (h : f.Tracks s) (hhub : s.hub.Holds s.sent) (hlistens : f.phase.listens = true)
    (p : FeedPhase) :
    Feed.Tracks s { f with
      phase := p, next := (s.hub.recv f.next).2, results := f.results ++ [(s.hub.recv f.next).1] } :=
  tracks_of_alive (h.follows.recv hhub) h.aof (h.alive hlistens)

end Tracks

section Count

def countOf (g : κ → Bool) : Nat := (Finset.univ.filter (fun k => g k = true)).card

theorem countOf_update_true {g : κ → Bool} {k : κ} (h : g k = false) :
    countOf (Function.update g k true) = countOf g + 1 := by
  have hset : Finset.univ.filter (fun x => Function.update g k true x = true) =
      insert k (Finset.univ.filter (fun x => g x = true)) := by
    ext x
    by_cases hx : x = k
    · simp [hx]
    · simp [hx]
  rw [countOf, hset, Finset.card_insert_of_notMem (by simp [h])]
  rfl

theorem countOf_update_false {g : κ → Bool} {k : κ} (h : g k = true) :
    countOf (Function.update g k false) + 1 = countOf g := by
  have hback := countOf_update_true (g := Function.update g k false) (k := k) (Function.update_self _ _ _)
  rw [Function.update_idem, ← h, Function.update_eq_self] at hback
  exact hback.symm

omit [DecidableEq ι] in
theorem countOf_feeds (s : System ι κ) (k : κ) (f : Feed ι) (p : FeedPhase → Bool) :
    countOf (fun x => p (Function.update s.feeds k f x).phase) =
      countOf (Function.update (fun x => p (s.feeds x).phase) k (p f.phase)) := by
  congr 1
  ext x
  by_cases hx : x = k
  · rw [hx, Function.update_self, Function.update_self]
  · rw [Function.update_of_ne hx, Function.update_of_ne hx]

end Count

section Steps

variable {s s' : System ι κ} {k : κ} {f : Feed ι}

omit [DecidableEq ι] in
theorem countOf_same (hcounted : f.phase.isCounted = (s.feeds k).phase.isCounted) :
    countOf (fun x => (Function.update s.feeds k f x).phase.isCounted) =
      countOf (fun x => (s.feeds x).phase.isCounted) := by
  rw [countOf_feeds s k f FeedPhase.isCounted, hcounted, Function.update_eq_self]

theorem System.Sound.setFeed (h : s.Sound) (slaveCount : UInt64)
    (hcount : slaveCount = UInt64.ofNat (countOf (fun x => (Function.update s.feeds k f x).phase.isCounted)))
    (htracks : f.began = true → f.Tracks s) (hwritten : f.Written) :
    System.Sound { s.setFeed k f with slaveCount := slaveCount } := by
  refine ⟨h.hub, hcount, fun x hx => ?_, fun x => ?_⟩
  · by_cases hk : x = k
    · subst hk
      simp only [System.setFeed, Function.update_self] at hx ⊢
      exact (htracks hx).same rfl rfl rfl
    · simp only [System.setFeed, Function.update_of_ne hk] at hx ⊢
      exact (h.tracks x hx).same rfl rfl rfl
  · by_cases hk : x = k
    · simp only [System.setFeed, hk, Function.update_self]
      exact hwritten
    · simp only [System.setFeed, Function.update_of_ne hk]
      exact h.written x

omit [DecidableEq κ] in
theorem System.Sound.sender (h : s.Sound) (more aofMore : List (ι × Bytes)) (hfeeds : s'.feeds = s.feeds)
    (hslaves : s'.slaveCount = s.slaveCount) (hhub : s'.hub.Holds s'.sent)
    (hsent : s'.sent = s.sent ++ more) (haof : s'.aof = s.aof ++ aofMore)
    (halive : 0 < s.receiverCount → ∀ lane, ofLane lane more ++ (s'.sending lane).inFlight =
      (s.sending lane).inFlight ++ ofLane lane aofMore) : s'.Sound := by
  refine ⟨hhub, ?_, fun k hk => ?_, fun k => ?_⟩
  · rw [hslaves, hfeeds]
    exact h.count
  · rw [hfeeds] at hk ⊢
    refine (h.tracks k hk).more _ _ hsent haof (fun hlistens => halive ?_)
    exact Finset.card_pos.mpr ⟨k, Finset.mem_filter.mpr ⟨Finset.mem_univ k, hlistens⟩⟩
  · rw [hfeeds]
    exact h.written k

omit [DecidableEq κ] [Fintype κ] in
theorem inFlight_goto (s : System ι κ) (lane x : ι) (v : Sending) :
    ((s.goto lane v).sending x).inFlight = if x = lane then v.inFlight else (s.sending x).inFlight := by
  by_cases hx : x = lane
  · simp [System.goto, hx]
  · simp [System.goto, hx]

omit [DecidableEq κ] [Fintype κ] in
theorem lanes_goto (s : System ι κ) (lane : ι) (v : Sending) (more aofMore : List (ι × Bytes))
    (hlane : ofLane lane more ++ v.inFlight = (s.sending lane).inFlight ++ ofLane lane aofMore)
    (hother : ∀ x, x ≠ lane → ofLane x more = [] ∧ ofLane x aofMore = []) (x : ι) :
    ofLane x more ++ ((s.goto lane v).sending x).inFlight =
      (s.sending x).inFlight ++ ofLane x aofMore := by
  rw [inFlight_goto]
  by_cases hx : x = lane
  · rw [if_pos hx, hx, hlane]
  · rw [if_neg hx, (hother x hx).1, (hother x hx).2, List.append_nil, List.nil_append]

omit [DecidableEq κ] in
theorem System.Sound.goto (h : s.Sound) (lane : ι) (v : Sending)
    (hv : 0 < s.receiverCount → v.inFlight = (s.sending lane).inFlight) : (s.goto lane v).Sound := by
  have hkeep (records : List (ι × Bytes)) : records = records ++ [] := (List.append_nil records).symm
  refine h.sender [] [] rfl rfl h.hub (hkeep s.sent) (hkeep s.aof) (fun hpos => ?_)
  exact lanes_goto s lane v [] [] (by simp [ofLane, hv hpos]) (by simp [ofLane])

omit [DecidableEq ι] [DecidableEq κ] [Fintype κ] in
theorem Feed.Written.atPhase (h : f.Written) (p : FeedPhase) (hwaiting : p ≠ .waiting)
    (hwriting : ∀ bytes, p ≠ .writing bytes) (hfresh : p.isFresh = true → f.phase.isFresh = true) :
    Feed.Written { f with phase := p } :=
  ⟨h.stream, fun hp => h.fresh (hfresh hp), fun hp => absurd hp hwaiting,
    fun bytes hp => absurd hp (hwriting bytes)⟩

omit [DecidableEq ι] [DecidableEq κ] [Fintype κ] in
theorem written_waiting (hphase : f.phase = .waiting) (hstream : f.socket <+: streamOf f.results)
    (hunbroken : f.broken = false → f.socket = streamOf f.results) : f.Written := by
  refine ⟨hstream, ?_, fun _ => hunbroken, ?_⟩
  · simp [hphase, FeedPhase.isFresh]
  · simp [hphase]

omit [DecidableEq ι] [DecidableEq κ] [Fintype κ] in
theorem Feed.Written.recv (h : f.Written) (hphase : f.phase = .waiting) (lane : ι) (bytes : Bytes)
    (next : Nat) :
    Feed.Written { f with
      phase := .writing bytes, next := next, results := f.results ++ [.value (lane, bytes)] } := by
  have hstream := streamOf_value f.results lane bytes
  refine ⟨?_, ?_, ?_, ?_⟩
  · rw [hstream]
    exact h.stream.trans (List.prefix_append _ _)
  · rintro ⟨⟩
  · rintro ⟨⟩
  · rintro b ⟨⟩
    exact ⟨streamOf f.results, hstream, h.waiting hphase, h.stream⟩

omit [DecidableEq ι] [DecidableEq κ] [Fintype κ] in
/-- The write fails on the way; a socket that has failed before takes nothing. -/
theorem Feed.Written.writeFails (h : f.Written) {bytes part : Bytes} (hphase : f.phase = .writing bytes)
    (hpart : part <+: bytes) (hbroken : f.broken = true → part = []) :
    Feed.Written { f with phase := .leaving, socket := f.socket ++ part, broken := true } := by
  obtain ⟨before, hstream, hunbroken, hfront⟩ := h.writing bytes hphase
  refine ⟨?_, ?_, ?_, ?_⟩
  · rw [hstream]
    cases hb : f.broken with
    | true =>
        rw [hbroken hb, List.append_nil]
        exact hfront.trans (List.prefix_append _ _)
    | false =>
        rw [hunbroken hb]
        exact (List.prefix_append_right_inj before).mpr hpart
  · rintro ⟨⟩
  · rintro ⟨⟩
  · rintro b ⟨⟩

/-- A step of a slave that stays between add_slave_count and sub_slave_count, or outside. -/
theorem System.Sound.setFeed_same (h : s.Sound)
    (hcounted : f.phase.isCounted = (s.feeds k).phase.isCounted)
    (htracks : f.began = true → f.Tracks s) (hwritten : f.Written) : (s.setFeed k f).Sound := by
  apply h.setFeed s.slaveCount _ htracks hwritten
  rw [countOf_same hcounted]
  exact h.count

theorem sound_step (h : s.Sound) (hstep : Step s s') : s'.Sound := by
  have hkeep (records : List (ι × Bytes)) : records = records ++ [] := (List.append_nil records).symm
  cases hstep with
  | @log lane bytes hsending =>
      refine h.sender [] [(lane, bytes)] rfl rfl h.hub (hkeep s.sent) rfl (fun _ => ?_)
      refine lanes_goto s lane _ [] _ ?_ (fun x hx => ⟨rfl, ofLane_other (Ne.symm hx) bytes⟩)
      rw [hsending, ofLane_self]
      rfl
  | @count lane bytes hsending =>
      apply h.goto
      intro hpos
      rw [if_pos hpos, hsending]
      rfl
  | @send lane bytes hsending hreceiver =>
      refine h.sender [(lane, bytes)] [] rfl rfl (h.hub.send _) rfl (hkeep s.aof) (fun _ => ?_)
      refine lanes_goto s lane _ _ [] ?_ (fun x hx => ⟨ofLane_other (Ne.symm hx) bytes, rfl⟩)
      rw [hsending, ofLane_self]
      rfl
  | @sendFails lane bytes hsending hreceiver =>
      apply h.goto
      intro hpos
      omega
  | @connect k hphase =>
      refine h.setFeed _ ?_ (by rintro ⟨⟩) ((h.written k).atPhase .counted nofun nofun (by simp [hphase, FeedPhase.isFresh]))
      have hnot : (fun x => (s.feeds x).phase.isCounted) k = false := by
        simp [hphase, FeedPhase.isCounted]
      rw [countOf_feeds s k _ FeedPhase.isCounted]
      change _ = UInt64.ofNat (countOf (Function.update _ k true))
      rw [countOf_update_true (g := fun x => (s.feeds x).phase.isCounted) hnot, UInt64.ofNat_add, h.count]
      rfl
  | @subscribe k hphase =>
      have hfresh := (h.written k).fresh (by simp [hphase, FeedPhase.isFresh])
      refine h.setFeed_same (by simp [hphase, FeedPhase.isCounted]) (fun _ => ?_) ?_
      · apply tracks_of_alive
        · simp only [hfresh.2.1]
          exact follows_nil (Nat.le_of_eq h.hub.tail)
        · exact Nat.le_refl _
        · intro lane
          simp [Feed.source, h.hub.tail, ofLane]
      · exact ⟨(h.written k).stream, fun _ => hfresh, nofun, nofun⟩
  | @greet k hphase =>
      obtain ⟨hsocket, hresults, -⟩ := (h.written k).fresh (by simp [hphase, FeedPhase.isFresh])
      have heq : (s.feeds k).socket ++ okResp = streamOf (s.feeds k).results := by
        rw [hsocket, hresults, streamOf_nil, List.nil_append]
      refine h.setFeed_same (by simp [hphase, FeedPhase.isCounted]) (fun _ => ?_) ?_
      · exact (h.tracks k (by simp [Feed.began, hphase])).atPhase _ (by simp [hphase, FeedPhase.listens]) _ _
      · exact written_waiting rfl (heq ▸ List.prefix_refl _) (fun _ => heq)
  | @greetFails k part hphase hpart =>
      obtain ⟨hsocket, hresults, -⟩ := (h.written k).fresh (by simp [hphase, FeedPhase.isFresh])
      refine h.setFeed_same (by simp [hphase, FeedPhase.isCounted]) (fun _ => ?_) ?_
      · exact (h.tracks k (by simp [Feed.began, hphase])).atPhase _ (by simp [hphase, FeedPhase.listens]) _ _
      · refine written_waiting rfl ?_ nofun
        simp only [hsocket, hresults, streamOf_nil, List.nil_append]
        exact hpart
  | @recv k lane bytes hphase hvalue =>
      refine h.setFeed_same (by simp [hphase, FeedPhase.isCounted]) (fun _ => ?_) ?_
      · exact (h.tracks k (by simp [Feed.began, hphase])).recv h.hub (by simp [hphase, FeedPhase.listens]) _
      · rw [hvalue]
        exact (h.written k).recv hphase lane bytes _
  | @lagged k n hphase hlagged =>
      refine h.setFeed_same rfl (fun _ => ?_) ?_
      · exact (h.tracks k (by simp [Feed.began, hphase])).recv h.hub (by simp [hphase, FeedPhase.listens]) _
      · rw [hlagged]
        refine written_waiting hphase ?_ (fun hbroken => ?_)
        · rw [streamOf_lagged]
          exact (h.written k).stream
        · rw [streamOf_lagged]
          exact (h.written k).waiting hphase hbroken
  | @write k bytes hphase hsocket =>
      obtain ⟨before, hstream, hunbroken, -⟩ := (h.written k).writing bytes hphase
      have heq : (s.feeds k).socket ++ bytes = streamOf (s.feeds k).results := by
        rw [hstream, hunbroken hsocket]
      refine h.setFeed_same (by simp [hphase, FeedPhase.isCounted]) (fun _ => ?_) ?_
      · exact (h.tracks k (by simp [Feed.began, hphase])).atPhase _ (by simp [hphase, FeedPhase.listens]) _ _
      · exact written_waiting rfl (heq ▸ List.prefix_refl _) (fun _ => heq)
  | @writeFails k bytes part hphase hpart hbroken =>
      refine h.setFeed_same (by simp [hphase, FeedPhase.isCounted]) (fun _ => ?_) ?_
      · exact (h.tracks k (by simp [Feed.began, hphase])).atPhase _ (by simp [hphase, FeedPhase.listens]) _ _
      · exact (h.written k).writeFails hphase hpart hbroken
  | @shutdown k hphase =>
      refine h.setFeed_same (by simp [hphase, FeedPhase.isCounted]) (fun _ => ?_) ?_
      · exact (h.tracks k (by simp [Feed.began, hphase])).atPhase _ (by simp [hphase, FeedPhase.listens]) _ _
      · exact (h.written k).atPhase .leaving nofun nofun nofun
  | @leave k hphase =>
      refine h.setFeed _ ?_ (fun _ => ?_) ((h.written k).atPhase .uncounted nofun nofun nofun)
      · have hcounted : (fun x => (s.feeds x).phase.isCounted) k = true := by
          simp [hphase, FeedPhase.isCounted]
        have hcount : s.slaveCount = UInt64.ofNat (countOf (fun x => (s.feeds x).phase.isCounted)) := h.count
        rw [countOf_feeds s k _ FeedPhase.isCounted]
        change _ = UInt64.ofNat (countOf (Function.update _ k false))
        rw [hcount, ← countOf_update_false (g := fun x => (s.feeds x).phase.isCounted) hcounted, UInt64.ofNat_add]
        exact add_sub_cancel_right _ _
      · exact (h.tracks k (by simp [Feed.began, hphase])).atPhase _ (by simp [hphase, FeedPhase.listens]) _ _
  | @drop k hphase =>
      refine h.setFeed_same (by simp [hphase, FeedPhase.isCounted]) (fun _ => ?_) ?_
      · exact (h.tracks k (by simp [Feed.began, hphase])).atPhase _ (by simp [FeedPhase.listens]) _ _
      · exact (h.written k).atPhase .gone nofun nofun nofun

omit [DecidableEq κ] in
theorem sound_new (capacity : Nat) : (System.new capacity : System ι κ).Sound where
  hub := holds_new capacity
  count := by simp [System.new, Feed.new, FeedPhase.isCounted]
  tracks k hk := by simp [System.new, Feed.new, Feed.began] at hk
  written k := by
    refine ⟨List.nil_prefix, fun _ => ⟨rfl, rfl, rfl⟩, ?_, ?_⟩
    · rintro ⟨⟩
    · rintro bytes ⟨⟩

theorem sound_reached {capacity : Nat} (h : Relation.ReflTransGen Step (System.new capacity) s) :
    s.Sound := by
  induction h with
  | refl => exact sound_new capacity
  | tail _ hstep ih => exact sound_step ih hstep

/-- In every interleaving of the senders with the slaves that come and go: SLAVE_COUNT is
the number of slaves in their loop. A slave's socket has taken the greeting and then whole
records in the order of the hub, each once, the last one perhaps in part, and all of it
when the slave waits for the next; what it got, what it was told it had missed and what is
still ahead of it are the records sent since it subscribed. Of every lane it got records
of the log, in the order of the log and from the one in flight when it subscribed; without
a gap when it was never told that it lags; and up to the end when it lags nothing and the
lane is idle. -/
theorem feed_follows_log {capacity : Nat} (h : Relation.ReflTransGen Step (System.new capacity) s) :
    s.slaveCount = UInt64.ofNat (Finset.univ.filter (fun k => (s.feeds k).phase.isCounted = true)).card ∧
    ∀ k, (s.feeds k).began = true →
      let f := s.feeds k
      let got := delivered f.results
      f.socket <+: handleSlavePsync (got.map Prod.snd) ∧
      (f.phase = .waiting → f.broken = false → f.socket = handleSlavePsync (got.map Prod.snd)) ∧
      got.Sublist (s.sent.drop f.since) ∧
      got.length + skipped f.results + (s.sent.length - f.next) = s.sent.length - f.since ∧
      (∀ lane, (ofLane lane got).Sublist (f.source s.aof lane)) ∧
      (skipped f.results = 0 → ∀ lane, ofLane lane got <+: f.source s.aof lane) ∧
      (skipped f.results = 0 → f.phase.listens = true → f.next = s.sent.length →
        ∀ lane, s.sending lane = .idle → ofLane lane got = f.source s.aof lane) := by
  have hsound := sound_reached h
  refine ⟨hsound.count, fun k hk => ?_⟩
  have htracks := hsound.tracks k hk
  have hwritten := hsound.written k
  have hcount := htracks.follows.count
  have hbound := htracks.follows.bound
  refine ⟨hwritten.stream, hwritten.waiting, htracks.follows.ordered.trans (List.take_sublist _ _), ?_,
    htracks.ordered, htracks.complete, fun hskip hlistens hnext lane hidle => ?_⟩
  · omega
  · exact htracks.caughtUp hskip hlistens hnext hidle

/-- No slave is further behind than the hub can hold. -/
def System.Near (s : System ι κ) : Prop :=
  ∀ k, (s.feeds k).phase.listens = true → s.sent.length ≤ (s.feeds k).next + s.hub.capacity

theorem skipped_step (hsound : s.Sound) (hnear : s.Near) (h : Step s s')
    (hskip : ∀ k, skipped (s.feeds k).results = 0) (k : κ) : skipped (s'.feeds k).results = 0 := by
  have hupdate : ∀ {x : κ} {f : Feed ι}, skipped f.results = 0 →
      skipped (Function.update s.feeds x f k).results = 0 := by
    intro x f hf
    by_cases hk : k = x
    · rwa [hk, Function.update_self]
    · rw [Function.update_of_ne hk]
      exact hskip k
  cases h with
  | log _ _ _ | count _ _ | send _ _ _ | sendFails _ _ _ => exact hskip k
  | connect x _ | subscribe x _ | greet x _ | greetFails x _ _ | write x _ _ | writeFails x _ _ _
  | shutdown x _ | leave x _ | drop x _ => exact hupdate (hskip x)
  | @recv x lane bytes hphase hvalue =>
      apply hupdate
      simp only
      rw [hvalue, skipped_append, hskip x]
      rfl
  | @lagged x n hphase hlagged =>
      have hfollows := (hsound.tracks x (by simp [Feed.began, hphase])).follows
      have hle := hnear x (by simp [hphase, FeedPhase.listens])
      obtain ⟨a, -, hrecv⟩ | ⟨m, hpos, hlag, hrecv⟩ | ⟨-, hrecv⟩ := hsound.hub.recv_cases hfollows.bound
      · simp [hrecv] at hlagged
      · omega
      · simp [hrecv] at hlagged

/-- Where no slave falls further behind than the hub can hold, each of them gets every
lane without a gap, and all of it once it has caught up. -/
theorem near_feeds_complete {capacity : Nat}
    (h : Relation.ReflTransGen (fun s s' => s.Near ∧ Step s s') (System.new capacity) s) :
    ∀ k, (s.feeds k).began = true → skipped (s.feeds k).results = 0 ∧
      (∀ lane, ofLane lane (delivered (s.feeds k).results) <+: (s.feeds k).source s.aof lane) ∧
      ((s.feeds k).phase.listens = true → (s.feeds k).next = s.sent.length →
        ∀ lane, s.sending lane = .idle →
          ofLane lane (delivered (s.feeds k).results) = (s.feeds k).source s.aof lane) := by
  have hinv : s.Sound ∧ ∀ k, skipped (s.feeds k).results = 0 := by
    induction h with
    | refl => exact ⟨sound_new capacity, fun _ => rfl⟩
    | tail _ hlast ih =>
        obtain ⟨hnear, hstep⟩ := hlast
        exact ⟨sound_step ih.1 hstep, skipped_step ih.1 hnear hstep ih.2⟩
  obtain ⟨hsound, hskip⟩ := hinv
  intro k hk
  have htracks := hsound.tracks k hk
  exact ⟨hskip k, htracks.complete (hskip k), fun hlistens hnext lane hidle =>
    htracks.caughtUp (hskip k) hlistens hnext hidle⟩

end Steps

section Sample

/-- Two lanes and one slave: the record of one lane is in the log when the slave
subscribes, and is broadcast after that of the other. -/
theorem feed_follows_log_sample : ∃ s : System Bool Unit,
    Relation.ReflTransGen Step (System.new 2) s ∧ s.aof = [(true, [1]), (false, [2]), (true, [3])] ∧
      s.slaveCount = 1 ∧ (s.feeds ()).socket = handleSlavePsync [[2], [1], [3]] ∧
      ∀ lane, ofLane lane (delivered (s.feeds ()).results) = (s.feeds ()).source s.aof lane := by
  have h0 : Relation.ReflTransGen Step (System.new 2 : System Bool Unit) (System.new 2) := .refl
  have h1 := h0.tail (.connect () rfl)
  have h2 := h1.tail (.log true [1] rfl)
  have h3 := h2.tail (.subscribe () rfl)
  have h4 := h3.tail (.greet () rfl)
  have h5 := h4.tail (.count true rfl)
  have h6 := h5.tail (.log false [2] rfl)
  have h7 := h6.tail (.count false rfl)
  have h8 := h7.tail (.send false rfl (by decide))
  have h9 := h8.tail (.send true rfl (by decide))
  have h10 := h9.tail (.recv () rfl rfl)
  have h11 := h10.tail (.write () rfl rfl)
  have h12 := h11.tail (.log true [3] rfl)
  have h13 := h12.tail (.recv () rfl rfl)
  have h14 := h13.tail (.count true rfl)
  have h15 := h14.tail (.write () rfl rfl)
  have h16 := h15.tail (.send true rfl (by decide))
  have h17 := h16.tail (.recv () rfl rfl)
  have h18 := h17.tail (.write () rfl rfl)
  obtain ⟨hcount, hfeeds⟩ := feed_follows_log h18
  obtain ⟨-, hsocket, -, -, -, -, hall⟩ := hfeeds () rfl
  exact ⟨_, h18, rfl, hcount.trans rfl, hsocket rfl rfl, fun lane => hall rfl rfl rfl lane (by cases lane <;> rfl)⟩

theorem near_feeds_complete_sample : ∃ s : System Unit Unit,
    Relation.ReflTransGen (fun s s' => s.Near ∧ Step s s') (System.new 2) s ∧ s.aof = [((), [1])] ∧
      ofLane () (delivered (s.feeds ()).results) = (s.feeds ()).source s.aof () := by
  have h0 : Relation.ReflTransGen (fun s s' => s.Near ∧ Step s s') (System.new 2 : System Unit Unit)
    (System.new 2) := .refl
  have h1 := h0.tail ⟨fun _ _ => Nat.zero_le _, .connect () rfl⟩
  have h2 := h1.tail ⟨fun _ _ => Nat.zero_le _, .subscribe () rfl⟩
  have h3 := h2.tail ⟨fun _ _ => Nat.zero_le _, .greet () rfl⟩
  have h4 := h3.tail ⟨fun _ _ => Nat.zero_le _, .log () [1] rfl⟩
  have h5 := h4.tail ⟨fun _ _ => Nat.zero_le _, .count () rfl⟩
  have h6 := h5.tail ⟨fun _ _ => Nat.zero_le _, .send () rfl (by decide)⟩
  have h7 := h6.tail ⟨fun _ _ => Nat.le_add_left 1 1, .recv () rfl rfl⟩
  exact ⟨_, h7, rfl, ((near_feeds_complete h7) () rfl).2.2 rfl rfl () rfl⟩

end Sample

end RustKv.Feeds
