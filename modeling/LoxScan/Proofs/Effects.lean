import LoxScan.Proofs.Delivery
import Mathlib.Data.List.Count

/-!
# Effects on streams

What a session does to its streams is a sequence of effects: a byte for one of the sinks, or a
flush. Streams perform the longest part of the sequence for which they have room and flushes left,
and nothing of what comes behind it. The session goes on behind the sequence exactly if that part is
all of it.
-/

namespace LoxScan

/-- One effect of a session. Waiting for a line changes no stream. -/
inductive Effect where
  | out (byte : UInt8)
  | err (byte : UInt8)
  | flush
  | await
  deriving DecidableEq

namespace Effect

/-- What an effect does. -/
def perform : Effect → Session Unit
  | out byte => Session.onOut (Sink.write [byte])
  | err byte => Session.onErr (Sink.write [byte])
  | flush => Session.onOut Sink.flush
  | await => pure ()

/-- The byte for the tokens. -/
def out? : Effect → Option UInt8
  | out byte => some byte
  | _ => none

/-- The byte for the diagnostics. -/
def err? : Effect → Option UInt8
  | err byte => some byte
  | _ => none

/-- The bytes for the tokens. -/
def outOf (effects : List Effect) : List UInt8 := effects.filterMap out?

/-- The bytes for the diagnostics. -/
def errOf (effects : List Effect) : List UInt8 := effects.filterMap err?

/-- Performs effects one after the other. -/
def performAll (effects : List Effect) : Session Unit := effects.forM perform

section

variable {left right : List Effect} {bytes : List UInt8}

/-- The bytes for the tokens come one after the other. -/
@[simp] theorem outOf_append : outOf (left ++ right) = outOf left ++ outOf right :=
  List.filterMap_append

/-- The bytes for the diagnostics come one after the other. -/
@[simp] theorem errOf_append : errOf (left ++ right) = errOf left ++ errOf right :=
  List.filterMap_append

/-- Effects for the tokens write their bytes there. -/
@[simp] theorem outOf_map_out : outOf (bytes.map out) = bytes := by
  simp [outOf, List.filterMap_map, Function.comp_def, out?]

/-- Effects for the tokens write no diagnostics. -/
@[simp] theorem errOf_map_out : errOf (bytes.map out) = [] := by
  simp [errOf, List.filterMap_map, Function.comp_def, err?]

/-- Effects for the diagnostics write no tokens. -/
@[simp] theorem outOf_map_err : outOf (bytes.map err) = [] := by
  simp [outOf, List.filterMap_map, Function.comp_def, out?]

/-- Effects for the diagnostics write their bytes there. -/
@[simp] theorem errOf_map_err : errOf (bytes.map err) = bytes := by
  simp [errOf, List.filterMap_map, Function.comp_def, err?]

/-- Bytes for the tokens flush nothing. -/
@[simp] theorem count_flush_map_out : (bytes.map out).count flush = 0 := by
  simp [List.count_eq_zero]

/-- Bytes for the diagnostics flush nothing. -/
@[simp] theorem count_flush_map_err : (bytes.map err).count flush = 0 := by
  simp [List.count_eq_zero]

/-- Two sequences of effects are performed one after the other. -/
theorem performAll_append :
    performAll (left ++ right) = (do performAll left; performAll right) := by
  simp only [performAll, List.forM_eq_forM, List.forM_append]

end

end Effect

namespace Session

/-- Works on the sink for the tokens are done one after the other. -/
theorem onOut_bind {α β : Type} (work : EStateM SystemError Sink α)
    (follow : α → EStateM SystemError Sink β) :
    onOut (work >>= follow) = (onOut work >>= fun result => onOut (follow result)) := by
  funext ⟨out, err⟩
  simp only [onOut, bind, EStateM.bind]
  cases work out <;> rfl

/-- Works on the sink for the diagnostics are done one after the other. -/
theorem onErr_bind {α β : Type} (work : EStateM SystemError Sink α)
    (follow : α → EStateM SystemError Sink β) :
    onErr (work >>= follow) = (onErr work >>= fun result => onErr (follow result)) := by
  funext ⟨out, err⟩
  simp only [onErr, bind, EStateM.bind]
  cases work err <;> rfl

/-- A write to either sink is an effect for each byte. -/
theorem write_eq_performAll {on : EStateM SystemError Sink Unit → Session Unit}
    {effect : UInt8 → Effect} (hpure : on (pure ()) = pure ())
    (hbind : ∀ first rest, on (do first; rest) = do on first; on rest)
    (heffect : ∀ byte, on (Sink.write [byte]) = (effect byte).perform) (bytes : List UInt8) :
    on (Sink.write bytes) = Effect.performAll (bytes.map effect) := by
  induction bytes with
  | nil =>
    rw [Sink.write_nil, hpure]
    rfl
  | cons byte bytes ih =>
    rw [← List.singleton_append, Sink.write_append, hbind, ih, heffect]
    rfl

/-- A write of tokens is an effect for each byte. -/
theorem onOut_write (bytes : List UInt8) :
    onOut (Sink.write bytes) = Effect.performAll (bytes.map .out) :=
  write_eq_performAll rfl (fun first rest => onOut_bind first fun _ => rest) (fun _ => rfl) bytes

/-- A write of diagnostics is an effect for each byte. -/
theorem onErr_write (bytes : List UInt8) :
    onErr (Sink.write bytes) = Effect.performAll (bytes.map .err) :=
  write_eq_performAll rfl (fun first rest => onErr_bind first fun _ => rest) (fun _ => rfl) bytes

end Session

/-- New streams with room for so many bytes, the first of which can be flushed so often. -/
def Streams.limited (outRoom errRoom flushes : Option Nat) : Streams :=
  ⟨{ room := outRoom, flushes := flushes }, { room := errRoom }⟩

/-- Whether a count stays within a limit, if there is one. -/
def Fits (limit : Option Nat) (count : Nat) : Prop := ∀ most ∈ limit, count ≤ most

/-- What is left of a limit when one unit of it is used, if that may be. -/
def spend : Option Nat → Option (Option Nat)
  | none => some none
  | some 0 => none
  | some (most + 1) => some (some most)

/-- Nothing fits any limit. -/
theorem fits_zero (limit : Option Nat) : Fits limit 0 := fun most _ => Nat.zero_le most

/-- One more unit fits a limit just if the others fit what is left of it. -/
theorem fits_succ_iff {limit rest : Option Nat} (h : spend limit = some rest) (count : Nat) :
    Fits limit (count + 1) ↔ Fits rest count := by
  rcases limit with _ | _ | most <;> cases h <;> simp [Fits]

/-- Nothing more fits a limit that is used up. -/
theorem not_fits_succ {limit : Option Nat} (h : spend limit = none) (count : Nat) :
    ¬ Fits limit (count + 1) := by
  rcases limit with _ | _ | most <;> cases h
  simp [Fits]

/-- A byte is received if there is room for it, and changes nothing otherwise. -/
theorem Sink.write_singleton (byte : UInt8) (sink : Sink) : write [byte] sink =
    match spend sink.room with
    | some room => .ok () { sink with received := sink.received ++ [byte], room := room }
    | none => .error .sinkFull sink := by
  obtain ⟨received, _ | _ | room, flushes⟩ := sink <;> simp [write, spend]

/-- A flush succeeds if one is left, and changes nothing otherwise. -/
theorem Sink.flush_eq (sink : Sink) : flush sink =
    match spend sink.flushes with
    | some flushes => .ok () { sink with flushes := flushes }
    | none => .error .flushFailed sink := by
  obtain ⟨received, room, _ | _ | flushes⟩ := sink <;> rfl

/-- Whether streams serve to the end of some effects. -/
structure Streams.Suffice (streams : Streams) (effects : List Effect) : Prop where
  out : Fits streams.out.room (Effect.outOf effects).length
  err : Fits streams.err.room (Effect.errOf effects).length
  flushes : Fits streams.out.flushes (effects.count .flush)

/-- The longest part of some effects for which streams suffice. -/
structure Streams.Longest (streams : Streams) (effects part : List Effect) : Prop where
  part_prefix : part <+: effects
  suffice : streams.Suffice part
  longest : ∀ other, other <+: effects → streams.Suffice other → other <+: part

/-- Streams before and after some effects: they have received the bytes, and serve for as much as
they did, less these effects. -/
structure Streams.Served (before : Streams) (effects : List Effect) (after : Streams) : Prop where
  out : after.out.bytes = before.out.bytes ++ Effect.outOf effects
  err : after.err.bytes = before.err.bytes ++ Effect.errOf effects
  suffice : ∀ later, before.Suffice (effects ++ later) ↔ after.Suffice later

/-- Streams serve to the end just if room and flushes are enough. -/
theorem Streams.suffice_iff {streams : Streams} {effects : List Effect} :
    streams.Suffice effects ↔ Fits streams.out.room (Effect.outOf effects).length ∧
      Fits streams.err.room (Effect.errOf effects).length ∧
        Fits streams.out.flushes (effects.count .flush) :=
  ⟨fun h => ⟨h.out, h.err, h.flushes⟩, fun h => ⟨h.1, h.2.1, h.2.2⟩⟩

namespace Effect

/-- An effect is performed, or refused by streams that it leaves alone. -/
theorem perform_cases (effect : Effect) (streams : Streams) :
    (∃ after, effect.perform streams = .ok () after ∧ streams.Served [effect] after) ∨
      ∃ error, effect.perform streams = .error (.failed (.stream error)) streams ∧
        ∀ later, ¬ streams.Suffice (effect :: later) := by
  cases effect with
  | out byte =>
    rw [perform, Session.onOut, Sink.write_singleton]
    cases hroom : spend streams.out.room with
    | some room =>
      refine .inl ⟨_, rfl, ?_, ?_, fun later => ?_⟩
      · simp [Sink.bytes, outOf, out?]
      · simp [Sink.bytes, errOf, err?]
      · simp [Streams.suffice_iff, outOf, errOf, out?, err?, List.filterMap_cons,
          fits_succ_iff hroom]
    | none =>
      refine .inr ⟨_, rfl, fun later h => not_fits_succ hroom (outOf later).length ?_⟩
      exact h.out
  | err byte =>
    rw [perform, Session.onErr, Sink.write_singleton]
    cases hroom : spend streams.err.room with
    | some room =>
      refine .inl ⟨_, rfl, ?_, ?_, fun later => ?_⟩
      · simp [Sink.bytes, outOf, out?]
      · simp [Sink.bytes, errOf, err?]
      · simp [Streams.suffice_iff, outOf, errOf, out?, err?, List.filterMap_cons,
          fits_succ_iff hroom]
    | none =>
      refine .inr ⟨_, rfl, fun later h => not_fits_succ hroom (errOf later).length ?_⟩
      exact h.err
  | flush =>
    rw [perform, Session.onOut, Sink.flush_eq]
    cases hflushes : spend streams.out.flushes with
    | some flushes =>
      refine .inl ⟨_, rfl, ?_, ?_, fun later => ?_⟩
      · simp [Sink.bytes, outOf, out?]
      · simp [Sink.bytes, errOf, err?]
      · simp [Streams.suffice_iff, outOf, errOf, out?, err?, List.filterMap_cons,
          fits_succ_iff hflushes]
    | none =>
      refine .inr ⟨_, rfl, fun later h => not_fits_succ hflushes (later.count .flush) ?_⟩
      rw [← List.count_cons_self]
      exact h.flushes
  | await =>
    refine .inl ⟨streams, rfl, ?_, ?_, fun later => ?_⟩
    · simp [outOf, out?]
    · simp [errOf, err?]
    · simp [Streams.suffice_iff, outOf, errOf, out?, err?, List.filterMap_cons]

end Effect

namespace Streams

variable {before middle after : Streams} {left right : List Effect}

/-- Streams that do nothing have served no effect. -/
theorem Served.refl (streams : Streams) : streams.Served [] streams :=
  ⟨(List.append_nil _).symm, (List.append_nil _).symm, fun _ => Iff.rfl⟩

/-- What is served in two parts is served as a whole. -/
theorem Served.append (hleft : before.Served left middle) (hright : middle.Served right after) :
    before.Served (left ++ right) after := by
  refine ⟨?_, ?_, fun later => ?_⟩
  · rw [hright.out, hleft.out, Effect.outOf_append, List.append_assoc]
  · rw [hright.err, hleft.err, Effect.errOf_append, List.append_assoc]
  · rw [List.append_assoc, hleft.suffice, hright.suffice]

/-- Streams that have served some effects did so far. -/
theorem Served.suffice_self (h : before.Served left after) : before.Suffice left := by
  rw [← List.append_nil left, h.suffice]
  exact ⟨fits_zero _, fits_zero _, fits_zero _⟩

/-- Of no effects the longest part is empty. -/
theorem Longest.nil (streams : Streams) : streams.Longest [] [] :=
  ⟨List.prefix_rfl, (Served.refl streams).suffice_self, fun _ hother _ => hother⟩

/-- An effect that was served is in front of what streams suffice for from then on. -/
theorem Longest.cons {effect : Effect} (hserved : before.Served [effect] middle)
    (h : middle.Longest right left) : before.Longest (effect :: right) (effect :: left) := by
  have hsuffice (later : List Effect) :
      before.Suffice (effect :: later) ↔ middle.Suffice later := hserved.suffice later
  refine ⟨List.cons_prefix_cons.2 ⟨rfl, h.part_prefix⟩, (hsuffice left).2 h.suffice, ?_⟩
  intro other hother hserves
  cases other with
  | nil => exact List.nil_prefix
  | cons first other =>
    obtain ⟨rfl, htail⟩ := List.cons_prefix_cons.1 hother
    exact List.cons_prefix_cons.2 ⟨rfl, h.longest other htail ((hsuffice other).1 hserves)⟩

/-- Streams that refuse the first effect suffice for none. -/
theorem Longest.of_refused {effect : Effect} (h : ∀ later, ¬ before.Suffice (effect :: later)) :
    before.Longest (effect :: right) [] := by
  refine ⟨List.nil_prefix, (Served.refl before).suffice_self, ?_⟩
  intro other hother hserves
  cases other with
  | nil => exact List.nil_prefix
  | cons first other =>
    obtain ⟨rfl, -⟩ := List.cons_prefix_cons.1 hother
    exact absurd hserves (h other)

end Streams

namespace Effect

/-- Effects are performed as far as the streams suffice. -/
theorem performAll_cases (effects : List Effect) (streams : Streams) :
    ∃ part after, streams.Longest effects part ∧ streams.Served part after ∧
      ((performAll effects streams = .ok () after ∧ part = effects) ∨
        ∃ error, performAll effects streams = .error (.failed (.stream error)) after ∧
          ¬ streams.Suffice effects) := by
  induction effects generalizing streams with
  | nil => exact ⟨[], streams, .nil streams, .refl streams, .inl ⟨rfl, rfl⟩⟩
  | cons effect effects ih =>
    have hcons : performAll (effect :: effects) = (do perform effect; performAll effects) := rfl
    rw [hcons]
    rcases perform_cases effect streams with
      ⟨middle, hperform, hserved⟩ | ⟨error, hperform, hrefused⟩
    · obtain ⟨part, after, hlongest, hrest, hcases⟩ := ih middle
      refine ⟨effect :: part, after, .cons hserved hlongest, hserved.append hrest, ?_⟩
      have hbind : (do perform effect; performAll effects) streams = performAll effects middle := by
        simp only [bind, EStateM.bind, hperform]
      rw [hbind, List.cons.injEq, and_iff_right rfl, ← List.singleton_append, hserved.suffice]
      exact hcases
    · refine ⟨[], streams, .of_refused hrefused, .refl streams, .inr ⟨error, ?_, hrefused effects⟩⟩
      simp only [bind, EStateM.bind, hperform]

end Effect

end LoxScan
