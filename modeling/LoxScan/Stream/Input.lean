import LoxScan.SystemError

/-!
# Inputs

An input serves its bytes line by line. It may break off where it would end; bytes after the last
newline are then lost.
-/

namespace LoxScan

/-- The byte that ends a line. -/
def newlineByte : UInt8 := 0x0A

/-- The bytes to come, and whether the input breaks off after them. -/
structure Input where
  bytes : List UInt8
  breaksOff : Bool := false
  deriving DecidableEq, Repr

namespace Input

/-- The next line, up to its newline, which belongs to it, and the input behind it. At the end
there is none. -/
def readLine? (input : Input) : Except SystemError (Option (List UInt8 × Input)) :=
  let front := input.bytes.takeWhile (· != newlineByte)
  match input.bytes.dropWhile (· != newlineByte) with
  | newline :: rest => .ok (some (front ++ [newline], { input with bytes := rest }))
  | [] =>
    if input.breaksOff then .error .readFailed
    else if front.isEmpty then .ok none
    else .ok (some (front, { input with bytes := [] }))

/-- A line and the input behind it are the input. -/
theorem append_of_readLine? {input rest : Input} {line : List UInt8}
    (h : input.readLine? = .ok (some (line, rest))) : line ++ rest.bytes = input.bytes := by
  have hsplit := List.takeWhile_append_dropWhile (p := (· != newlineByte)) (l := input.bytes)
  simp only [readLine?] at h
  split at h
  · next newline behind hdrop =>
    cases h
    rw [hdrop] at hsplit
    simpa using hsplit
  · next hdrop =>
    split at h
    · cases h
    · split at h
      · cases h
      · cases h
        rw [hdrop] at hsplit
        simpa using hsplit

/-- A line is not empty. -/
theorem ne_nil_of_readLine? {input rest : Input} {line : List UInt8}
    (h : input.readLine? = .ok (some (line, rest))) : line ≠ [] := by
  simp only [readLine?] at h
  split at h
  · cases h
    simp
  · split at h
    · cases h
    · split at h
      · cases h
      · next hfront =>
        cases h
        simpa using hfront

/-- An input is shorter behind a line. -/
theorem length_of_readLine? {input rest : Input} {line : List UInt8}
    (h : input.readLine? = .ok (some (line, rest))) :
    rest.bytes.length < input.bytes.length := by
  have happend := congrArg List.length (append_of_readLine? h)
  have hpos := List.length_pos_iff.2 (ne_nil_of_readLine? h)
  rw [List.length_append] at happend
  omega

end Input

end LoxScan
