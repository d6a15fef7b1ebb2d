import RustKv.LogRecords

namespace RustKv.Recovery

open Text Protocol Domain FrameParser FrameRoundTrip CommandParser AofEncoder AofRoundTrip RequestReading

section Reading

variable {S : Type} [F64 S]

/-- A frame as the program can hold it: no Vec and no Bytes is longer than isize::MAX. -/
def Holdable : Frame → Prop
  | .array frames => frames.length < 2 ^ 63 ∧ ∀ data, .bulk data ∈ frames → data.length < 2 ^ 63
  | _ => True

/-- The kinds of commands that leave a record, SET without its expiration. -/
def Recordable : Command S → Prop
  | .set c => c.expiration = none
  | .mset _ | .lpush _ | .lpop _ | .hset _ | .hdel _ | .zadd _ | .zrem _ | .jsonSet _ => True
  | _ => False

/-- The condition of a SET is not part of its record. -/
def unconditional : Command S → Command S
  | .set c => .set { c with condition := none }
  | c => c

variable [Host]

/-- A command that try_from has made, of a request or of the arguments of redis.call. -/
def Produced (c : Command S) : Prop := ∃ f, Holdable f ∧ tryFrom f = .ok c

def decodeCommands : Nat → Bytes → Option (List (Command S))
  | 0, b => if b = [] then some [] else none
  | fuel + 1, b =>
      if b = [] then some []
      else
        match parseFrame b with
        | .ok (some (f, consumed)) =>
            match tryFrom f with
            | .ok c => (decodeCommands fuel (b.drop consumed)).map (c :: ·)
            | .error _ => none
        | _ => none

theorem Produced.readFrom {c : Command S} (h : Produced c) :
    ∃ iter, ReadFrom c iter ∧ iter.length + 1 < 2 ^ 63 ∧
      ∀ data, .bulk data ∈ iter → data.length < 2 ^ 63 := by
  obtain ⟨f, hf, htry⟩ := h
  unfold tryFrom at htry
  split at htry
  · cases htry
  · next name iter =>
    split at htry
    · cases htry
    · refine ⟨iter, dispatch_readFrom htry, hf.1, fun data hdata => ?_⟩
      exact hf.2 data (List.mem_cons_of_mem _ hdata)
  · cases htry
  · cases htry

omit [F64 S] [Host] in
theorem Recordable.recorded_eq {c : Command S} (h : Recordable c) (now : Nat) :
    recorded now c = unconditional c := by
  cases c with
  | set c =>
      rw [recorded, unconditional, show c.expiration = none from h]
      rfl
  | _ => rfl

omit [Host] in
theorem Recordable.frame {c : Command S} (h : Recordable c) (now : Nat) : ∃ f, aofFrame now c = some f := by
  cases c with
  | set | mset | lpush | lpop | hset | hdel | jsonSet | zadd | zrem => exact ⟨_, rfl⟩
  | get | ping | unimplement | eval | blpop | hget | mget | multi | exec | multiGroup | jsonGet
  | zscore | zrank | zrange => exact h.elim

theorem record_frame {c : Command S} (hc : Produced c) (hk : Recordable c) (now : Nat) :
    ∃ f, aofFrame now c = some f ∧ Fits f ∧ tryFrom f = .ok (unconditional c) := by
  obtain ⟨iter, hr, hlen, hdata⟩ := hc.readFrom
  obtain ⟨f, hf⟩ := hk.frame now
  have hfit : Fits f := by
    apply aofFrame_fits hr _ (by omega) hf
    intro data hmem
    have := hdata data hmem
    rw [Fits]
    omega
  have hlog : Loggable now c := by
    apply loggable_of_readFrom hr
    rintro d rfl
    exact hk
  refine ⟨f, hf, hfit, ?_⟩
  rw [← hk.recorded_eq now]
  exact tryFrom_aofFrame hf hlog

theorem decodeCommands_frames {fs : List Frame} {cs : List (Command S)}
    (h : List.Forall₂ (fun f c => Fits f ∧ tryFrom f = .ok c) fs cs) (fuel : Nat)
    (hfuel : (serializeAll fs).length ≤ fuel) : decodeCommands fuel (serializeAll fs) = some cs := by
  induction h generalizing fuel with
  | nil => cases fuel <;> rfl
  | @cons f c fs cs hf _ ih =>
      have hpos := serialize_length_pos f
      rw [serializeAll, List.length_append] at hfuel
      cases fuel with
      | zero => omega
      | succ fuel =>
          have hne : serialize f ++ serializeAll fs ≠ [] := by
            intro hnil
            simp [(List.append_eq_nil_iff.mp hnil).1] at hpos
          rw [serializeAll, decodeCommands, if_neg hne]
          simp only [parseFrame_append hf.1, hf.2, List.drop_left, ih fuel (by omega), Option.map_some]

theorem group_frames {now : Nat} {cmds : List (Command S)}
    (h : ∀ c ∈ cmds, Produced c ∧ Recordable c) :
    List.Forall₂ (fun f c => Fits f ∧ tryFrom f = .ok c) (cmds.filterMap (aofFrame now) ++ [execFrame])
      (cmds.map unconditional ++ [.exec]) := by
  induction cmds with
  | nil => exact .cons ⟨execFrame_fits, tryFrom_execFrame⟩ .nil
  | cons c cmds ih =>
      obtain ⟨hc, hk⟩ := h c List.mem_cons_self
      obtain ⟨f, hf, hread⟩ := record_frame hc hk now
      rw [List.filterMap_cons_some hf]
      exact .cons hread (ih (fun d hd => h d (List.mem_cons_of_mem c hd)))

/-- The parsers read every record back as the command it was written for, and the record of a
group as its commands between MULTI and EXEC. -/
theorem records_read_back :
    (∀ (now : Nat) (c : Command S) (rest : Bytes), Produced c → Recordable c →
      ∃ b f, encodeAofCommand now c = some b ∧ parseFrame (b ++ rest) = .ok (some (f, b.length)) ∧
        tryFrom f = .ok (unconditional c)) ∧
    ∀ (now : Nat) (cmds : List (Command S)), (∀ c ∈ cmds, Produced c ∧ Recordable c) →
      ∃ b, encodeAofCommand now (.multiGroup cmds) = some b ∧
        decodeCommands b.length b = some (.multi :: cmds.map unconditional ++ [.exec]) := by
  constructor
  · intro now c rest hc hk
    obtain ⟨f, hf, hfit, htry⟩ := record_frame hc hk now
    exact ⟨serialize f, f, encodeAofCommand_eq hf, parseFrame_append hfit rest, htry⟩
  · intro now cmds h
    have hframes : List.Forall₂ (fun f c => Fits f ∧ tryFrom f = .ok c) (LogRecord.group now cmds).frames
        (.multi :: cmds.map unconditional ++ [.exec]) :=
      .cons ⟨multiFrame_fits, tryFrom_multiFrame⟩ (group_frames h)
    refine ⟨serializeAll (LogRecord.group now cmds).frames, ?_,
      decodeCommands_frames hframes _ (le_refl _)⟩
    rw [← group_bytes_eq now cmds]
    rfl

end Reading

section Sample

attribute [local instance] Types.singleShard Types.wholeScore

/-- SET k v NX. -/
def sampleNx : SetCommand := ⟨Str.ofAscii (ascii ['k']) ascii_k, ascii ['v'], none, some .nx⟩

def sampleRequest : Frame :=
  .array [.bulk (ascii ['s', 'e', 't']), .bulk (ascii ['k']), .bulk (ascii ['v']), .bulk (ascii ['n', 'x'])]

theorem records_read_back_sample :
    ∃ b f, encodeAofCommand 0 (Command.set (S := UInt64) sampleNx) = some b ∧
      parseFrame (b ++ crlf) = .ok (some (f, b.length)) ∧
        tryFrom f = .ok (Command.set (S := UInt64) ⟨sampleNx.key, sampleNx.value, none, none⟩) := by
  have hc : Produced (Command.set (S := UInt64) sampleNx) := by
    refine ⟨sampleRequest, ?_, rfl⟩
    simp [sampleRequest, Holdable, ascii]
  exact records_read_back.1 0 _ crlf hc rfl

end Sample

end RustKv.Recovery
