import Mathlib.Data.List.TakeWhile

/-!
# Runs of characters

The longest run at the front of a text whose characters satisfy a test, and what stops it.
-/

namespace LoxScan

/-- What follows the longest run does not satisfy the test. -/
theorem any_head?_dropWhile (test : Char → Bool) (text : List Char) :
    (text.dropWhile test).head?.any test = false := by
  have h := List.head?_dropWhile_not test text
  cases hhead : (text.dropWhile test).head? with
  | none => rfl
  | some c =>
    rw [hhead] at h
    simpa using h

/-- A run that is followed by nothing that satisfies the test is the longest one. -/
theorem takeWhile_append_of_any {test : Char → Bool} {front rest : List Char}
    (hfront : ∀ c ∈ front, test c = true) (hrest : rest.head?.any test = false) :
    (front ++ rest).takeWhile test = front := by
  rw [List.takeWhile_append_of_pos hfront]
  cases rest with
  | nil => simp
  | cons c rest =>
    have hc : test c = false := by simpa using hrest
    simp [hc]

/-- Dropping ends where the test fails first. -/
theorem dropWhile_append_of_any {test : Char → Bool} {front rest : List Char}
    (hfront : ∀ c ∈ front, test c = true) (hrest : rest.head?.any test = false) :
    (front ++ rest).dropWhile test = rest := by
  rw [List.dropWhile_append_of_pos hfront]
  cases rest with
  | nil => rfl
  | cons c rest =>
    have hc : test c = false := by simpa using hrest
    simp [hc]

/-- A text is split in one way into a longest run and what stops it. -/
theorem append_inj_of_any {test : Char → Bool} {front other rest more : List Char}
    (hfront : ∀ c ∈ front, test c = true) (hother : ∀ c ∈ other, test c = true)
    (hrest : rest.head?.any test = false) (hmore : more.head?.any test = false)
    (h : front ++ rest = other ++ more) : front = other ∧ rest = more := by
  constructor
  · rw [← takeWhile_append_of_any hfront hrest, h, takeWhile_append_of_any hother hmore]
  · rw [← dropWhile_append_of_any hfront hrest, h, dropWhile_append_of_any hother hmore]

/-- A run does not go on over what stops it. -/
theorem length_le_of_any {test : Char → Bool} {front other rest : List Char}
    (hfront : ∀ c ∈ front, test c = true) (hrest : rest.head?.any test = false)
    (h : front <+: other ++ rest) : front.length ≤ other.length := by
  induction other generalizing front with
  | nil =>
    cases front with
    | nil => simp
    | cons c front =>
      obtain ⟨behind, rfl⟩ : c :: front <+: rest := h
      simp [hfront c List.mem_cons_self] at hrest
  | cons d other ih =>
    cases front with
    | nil => simp
    | cons c front =>
      obtain ⟨rfl, htail⟩ := List.cons_prefix_cons.1 h
      have hle := ih (fun e he => hfront e (List.mem_cons_of_mem _ he)) htail
      simpa using hle

/-- The run up to a character does not hold it. -/
theorem notMem_takeWhile_ne (d : Char) (text : List Char) : d ∉ text.takeWhile (· != d) := by
  intro h
  have hne := List.mem_takeWhile_imp h
  simp at hne

/-- What stops the run up to a character is that character. -/
theorem eq_of_dropWhile_ne {c d : Char} {text rest : List Char}
    (h : text.dropWhile (· != d) = c :: rest) : c = d := by
  have hhead := any_head?_dropWhile (· != d) text
  rw [h] at hhead
  simpa using hhead

/-- A text without a character is passed whole in search of it. -/
theorem takeWhile_ne_of_notMem {d : Char} {text : List Char} (h : d ∉ text) :
    text.takeWhile (· != d) = text := by
  rw [List.takeWhile_eq_self_iff]
  intro c hc
  simpa using ne_of_mem_of_not_mem hc h

/-- Without a stop everything is dropped. -/
theorem dropWhile_ne_of_notMem {d : Char} {text : List Char} (h : d ∉ text) :
    text.dropWhile (· != d) = [] := by
  rw [List.dropWhile_eq_nil_iff]
  intro c hc
  simpa using ne_of_mem_of_not_mem hc h

/-- A run without a character goes on to its first occurrence. -/
theorem takeWhile_ne_append {d : Char} {front : List Char} (h : d ∉ front) (rest : List Char) :
    (front ++ d :: rest).takeWhile (· != d) = front := by
  apply takeWhile_append_of_any
  · intro c hc
    simpa using ne_of_mem_of_not_mem hc h
  · simp

/-- What is dropped ends at the first stop. -/
theorem dropWhile_ne_append {d : Char} {front : List Char} (h : d ∉ front) (rest : List Char) :
    (front ++ d :: rest).dropWhile (· != d) = d :: rest := by
  apply dropWhile_append_of_any
  · intro c hc
    simpa using ne_of_mem_of_not_mem hc h
  · simp

end LoxScan
