import PeerDma.Eligibility

/-!
# Names of namespaces

The name of an NVMe namespace has two numbers, that of its controller and its own: nvme, the first
number, n, the second. `isNamespaceName` reads a name once from left to right and takes all the
digits it finds in a row. A number cannot end before that, so no name is missed.

* `IsNumber`: one or more of the ten digits.
* `afterText?_eq_some_iff`, `afterDigits?_eq_some_iff`: what the two steps of the reader leave.
* `isNamespaceName_iff`: the reader accepts the names of namespaces and nothing else.
-/

namespace PeerDma

/-- One or more digits, and nothing else. The digits are the ten of ASCII. -/
def IsNumber (s : String) : Prop := s ≠ "" ∧ ∀ c ∈ s.toList, '0' ≤ c ∧ c ≤ '9'

theorem isDigit_iff {c : Char} : c.isDigit ↔ '0' ≤ c ∧ c ≤ '9' := by
  simp [Char.isDigit, Char.le_def]

theorem isNumber_iff {s : String} : IsNumber s ↔ s.toList ≠ [] ∧ ∀ c ∈ s.toList, c.isDigit := by
  simp only [IsNumber, isDigit_iff, ne_eq, String.toList_eq_nil_iff]

/-- What follows a text is what it has to be put in front of. -/
theorem afterText?_eq_some_iff {text cs rest : List Char} :
    afterText? text cs = some rest ↔ cs = text ++ rest := by
  fun_induction afterText? text cs with
  | case1 cs => simp
  | case2 => simp
  | case3 more d tail ih => simp [ih]
  | case4 c more d tail hne => simp [Ne.symm hne]

/-- What follows a number is what is left once no more digits follow. -/
theorem afterDigits?_eq_some_iff {cs rest : List Char} : afterDigits? cs = some rest ↔
    ∃ digits, digits ≠ [] ∧ (∀ c ∈ digits, c.isDigit) ∧ (∀ c ∈ rest.head?, ¬c.isDigit) ∧
      cs = digits ++ rest := by
  constructor
  · intro h
    cases cs with
    | nil => cases h
    | cons c tail =>
      simp only [afterDigits?, Option.ite_none_right_eq_some, Option.some.injEq] at h
      obtain ⟨hc, rfl⟩ := h
      refine ⟨c :: tail.takeWhile Char.isDigit, by simp, ?_, ?_, ?_⟩
      · exact List.forall_mem_cons.2 ⟨hc, List.all_eq_true.1 List.all_takeWhile⟩
      · intro d hd
        have hstop := List.head?_dropWhile_not Char.isDigit tail
        rw [Option.mem_def.1 hd] at hstop
        simpa using hstop
      · rw [List.cons_append, List.takeWhile_append_dropWhile]
  · rintro ⟨digits, hne, hdigits, hrest, rfl⟩
    obtain ⟨c, more, rfl⟩ := List.exists_cons_of_ne_nil hne
    obtain ⟨hc, hmore⟩ := List.forall_mem_cons.1 hdigits
    -- All of the number goes, and nothing behind it.
    have hdrop : (more ++ rest).dropWhile Char.isDigit = rest := by
      rw [List.dropWhile_append_of_pos hmore]
      cases rest with
      | nil => rfl
      | cons d tail => exact List.dropWhile_cons_of_neg (hrest d rfl)
    rw [List.cons_append, afterDigits?, if_pos hc, hdrop]

/-- **The names of namespaces.** A name is that of an NVMe namespace exactly if it is nvme, a
number, n, a number, and nothing else. -/
theorem isNamespaceName_iff (name : String) : isNamespaceName name ↔
    ∃ controller number, IsNumber controller ∧ IsNumber number ∧
      name = "nvme" ++ controller ++ "n" ++ number := by
  unfold isNamespaceName
  simp only [beq_iff_eq, Option.bind_eq_bind, Option.bind_eq_some_iff, afterText?_eq_some_iff,
    afterDigits?_eq_some_iff]
  constructor
  · rintro ⟨_, hname, _, ⟨controller, hne, hcontroller, -, rfl⟩, _, rfl, number, hne', hnumber, -,
      rfl⟩
    refine ⟨.ofList controller, .ofList number, isNumber_iff.2 ?_, isNumber_iff.2 ?_, ?_⟩
    · rw [String.toList_ofList]
      exact ⟨hne, hcontroller⟩
    · rw [String.toList_ofList]
      exact ⟨hne', hnumber⟩
    · rw [← String.toList_inj, hname]
      simp
  · rintro ⟨controller, number, hcontroller, hnumber, rfl⟩
    obtain ⟨hne, hcontroller⟩ := isNumber_iff.1 hcontroller
    obtain ⟨hne', hnumber⟩ := isNumber_iff.1 hnumber
    -- The first number ends in front of the n, which is no digit, and the second with the name.
    have hstop : ∀ c ∈ ('n' :: number.toList).head?, ¬c.isDigit := by
      rintro c ⟨⟩
      decide
    exact ⟨controller.toList ++ 'n' :: number.toList, by simp, 'n' :: number.toList,
      ⟨controller.toList, hne, hcontroller, hstop, rfl⟩, number.toList, rfl,
      number.toList, hne', hnumber, nofun, (List.append_nil _).symm⟩

example : isNamespaceName "nvme12n345" ∧ ¬isNamespaceName "nvme0n1p1" ∧ ¬isNamespaceName "nvme0n" ∧
    ¬isNamespaceName "nvme３n1" := by decide

end PeerDma
