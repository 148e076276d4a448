import OpTape.Binary64
import OpTape.Trace
/-
  The lines of a trace. Every line is written from names, numbers and the texts of values, and none
  of these goes over the end of a line; so a trace has as many lines as there are independents,
  usages and dependents, whatever the values are.
-/
namespace OpTape

namespace Text

/-- The text does not go over the end of a line. -/
def Unbroken (text : String) : Prop := '\n' ∉ text.toList

instance (text : String) : Decidable (Unbroken text) := inferInstanceAs (Decidable (¬_))

/-- The text is one line with its end. -/
def IsLine (text : String) : Prop := ∃ body, Unbroken body ∧ text = body ++ "\n"

@[simp] theorem unbroken_append {a b : String} :
    Unbroken (a ++ b) ↔ Unbroken a ∧ Unbroken b := by
  simp [Unbroken]

theorem unbroken_of_isDigit {text : String} (h : ∀ c ∈ text.toList, c.isDigit = true) :
    Unbroken text := fun hmem => by
  have := h _ hmem
  revert this
  decide

@[simp] theorem unbroken_toString (n : Nat) : Unbroken (toString n) :=
  unbroken_of_isDigit fun _ hc =>
    Nat.isDigit_of_mem_toDigits (by decide) (by decide) (Nat.toList_repr ▸ hc)

theorem Unbroken.pushn {text : String} (h : Unbroken text) {c : Char} (hc : c ≠ '\n') (n : Nat) :
    Unbroken (text.pushn c n) := by
  induction n with
  | zero => exact h
  | succ n ih =>
    show Unbroken ((text.pushn c n).push c)
    rw [Unbroken, String.toList_push, List.mem_append, List.mem_singleton]
    rintro (hmem | hmem)
    · exact ih hmem
    · exact hc hmem.symm

theorem Unbroken.alignRight {text : String} (h : Unbroken text) (width : Nat) :
    Unbroken (alignRight width text) :=
  unbroken_append.mpr ⟨Unbroken.pushn (by decide) (by decide) _, h⟩

theorem Unbroken.alignLeft {text : String} (h : Unbroken text) (width : Nat) :
    Unbroken (alignLeft width text) := h.pushn (by decide) _

theorem unbroken_spaced {α : Type} {text : α → String} {items : List α}
    (h : ∀ a ∈ items, Unbroken (text a)) : Unbroken (spaced text items) := by
  rw [spaced]
  induction items with
  | nil => simp [Unbroken]
  | cons a items ih =>
    have ha := h a List.mem_cons_self
    have hitems := ih fun b hb => h b (List.mem_cons_of_mem a hb)
    cases items with
    | nil => simpa using ha
    | cons b items =>
      rw [List.map_cons, List.map_cons, String.intercalate_cons_cons, unbroken_append,
        unbroken_append]
      exact ⟨⟨ha, by decide⟩, hitems⟩

end Text

namespace Trace

open Text

theorem unbroken_kind (k : Kind) : Unbroken k.name := by
  cases k with
  | unary op => cases op <;> decide
  | binary op => cases op <;> decide
  | foreign family => cases family <;> decide
  | _ => decide

variable {V : Type}

theorem unbroken_usageName (u : Usage V) : Unbroken (usageName u) := by
  cases u with
  | compare cmp => exact unbroken_append.mpr ⟨by decide, by cases cmp <;> decide⟩
  | select cmp => exact unbroken_append.mpr ⟨by decide, by cases cmp <;> decide⟩
  | foreign family id =>
    exact unbroken_append.mpr ⟨unbroken_append.mpr ⟨by cases family <;> decide, by decide⟩,
      unbroken_toString id⟩
  | _ => exact unbroken_kind _

variable [Scalar V]

/-- The texts of values do not go over the end of a line. -/
def UnbrokenValues (V : Type) [Scalar V] : Prop := ∀ v : V, Unbroken (Scalar.text v)

theorem isLine_independentLine (hvalues : UnbrokenValues V) (index : Nat) (value : V) :
    IsLine (independentLine index value) := by
  refine ⟨_, ?_, rfl⟩
  have hindex := (unbroken_toString index).alignRight 5
  exact unbroken_append.mpr ⟨unbroken_append.mpr ⟨hindex, by decide⟩, hvalues value⟩

theorem isLine_dependentLine (hvalues : UnbrokenValues V) (place index : Nat) (value : V) :
    IsLine (dependentLine place index value) := by
  refine ⟨_, ?_, rfl⟩
  have hplace := (unbroken_toString place).alignRight 5
  have hindex : Unbroken s!"  v{index} = " :=
    unbroken_append.mpr ⟨unbroken_append.mpr ⟨by decide, unbroken_toString index⟩, by decide⟩
  exact unbroken_append.mpr ⟨unbroken_append.mpr ⟨hplace, hindex⟩, hvalues value⟩

theorem unbroken_start (first count : Nat) :
    Unbroken (alignRight 5 (if count = 0 then "-" else toString first) ++ "  ") := by
  refine unbroken_append.mpr ⟨Unbroken.alignRight ?_ 5, by decide⟩
  split
  · decide
  · exact unbroken_toString first

theorem unbroken_operands (hvalues : UnbrokenValues V) (header args : List Nat)
    (results : List V) :
    Unbroken (if header.isEmpty then "" else "[" ++ spaced toString header ++ "] ") ∧
      Unbroken (spaced toString args) ∧
      Unbroken (if results.isEmpty then "" else " = " ++ spaced Scalar.text results) := by
  have hnumbers (items : List Nat) : Unbroken (spaced toString items) :=
    unbroken_spaced fun i _ => unbroken_toString i
  refine ⟨?_, hnumbers args, ?_⟩
  · split
    · decide
    · exact unbroken_append.mpr ⟨unbroken_append.mpr ⟨by decide, hnumbers header⟩, by decide⟩
  · split
    · decide
    · exact unbroken_append.mpr ⟨by decide, unbroken_spaced fun v _ => hvalues v⟩

theorem isLine_usageLine (hvalues : UnbrokenValues V) (first : Nat) (slice : List Nat)
    (u : Usage V) (results : List V) : IsLine (usageLine first slice u results) := by
  have hstart := unbroken_start first u.resultCount
  have hname := (unbroken_usageName u).alignLeft 8
  obtain ⟨hheader, hargs, hresults⟩ :=
    unbroken_operands hvalues (usageHeader slice u) u.args results
  cases u with
  | constant value =>
    have hkind := (unbroken_kind (Usage.constant value).kind).alignLeft 8
    exact ⟨_, unbroken_append.mpr ⟨unbroken_append.mpr ⟨hstart, hkind⟩, hvalues value⟩, rfl⟩
  | _ =>
    exact ⟨_, unbroken_append.mpr ⟨unbroken_append.mpr ⟨unbroken_append.mpr
      ⟨unbroken_append.mpr ⟨hstart, hname⟩, hheader⟩, hargs⟩, hresults⟩, rfl⟩

/-- The text is a title and `n` lines. -/
def IsBlock (title : String) (n : Nat) (text : String) : Prop :=
  ∃ lines : List String, lines.length = n ∧ (∀ line ∈ lines, IsLine line) ∧
    text = title ++ "\n" ++ String.join lines

theorem isBlock_independentBlock (hvalues : UnbrokenValues V) (values : List V) :
    IsBlock "independent vector" values.length (independentBlock values) := by
  refine ⟨_, by rw [List.length_map, List.length_zipIdx], fun line hline => ?_, rfl⟩
  obtain ⟨⟨value, index⟩, -, rfl⟩ := List.mem_map.mp hline
  exact isLine_independentLine hvalues index value

theorem isBlock_dependentBlock (hvalues : UnbrokenValues V) {indices : List Nat} {values : List V}
    (hlength : values.length = indices.length) :
    IsBlock "dependent vector" indices.length (dependentBlock indices values) := by
  refine ⟨_, ?_, fun line hline => ?_, rfl⟩
  · rw [List.length_map, List.length_zipIdx, List.length_zip, hlength, Nat.min_self]
  · obtain ⟨⟨⟨index, value⟩, place⟩, -, rfl⟩ := List.mem_map.mp hline
    exact isLine_dependentLine hvalues place index value

/-- The line of a usage has an end, whatever stands in it. -/
theorem exists_usageLine_eq (first : Nat) (slice : List Nat) (u : Usage V) (results : List V) :
    ∃ body, usageLine first slice u results = body ++ "\n" := by
  cases u <;> exact ⟨_, rfl⟩

end Trace

namespace Binary64

open Text Decimal

theorem unbroken_positional (s : Scientific) : Unbroken s.positional := by
  have hdigits (c : Char) (hc : c ∈ (toString s.digits).toList) : c.isDigit = true :=
    Nat.isDigit_of_mem_toDigits (by decide) (by decide) (Nat.toList_repr ▸ hc)
  have hzeros (n : Nat) : Unbroken (Scientific.zeros n) :=
    Unbroken.pushn (by decide) (by decide) n
  unfold Scientific.positional
  simp only []
  split
  · exact unbroken_append.mpr ⟨unbroken_toString _, hzeros _⟩
  · split
    · have htake (n : Nat) : Unbroken (String.ofList ((toString s.digits).toList.take n)) :=
        unbroken_of_isDigit fun c hc => hdigits c (List.mem_of_mem_take (by simpa using hc))
      have hdrop (n : Nat) : Unbroken (String.ofList ((toString s.digits).toList.drop n)) :=
        unbroken_of_isDigit fun c hc => hdigits c (List.mem_of_mem_drop (by simpa using hc))
      exact unbroken_append.mpr ⟨unbroken_append.mpr ⟨htake _, by decide⟩, hdrop _⟩
    · exact unbroken_append.mpr ⟨unbroken_append.mpr ⟨by decide, hzeros _⟩, unbroken_toString _⟩

theorem unbroken_magnitude (fraction exponent : Nat) : Unbroken (magnitude fraction exponent) := by
  unfold magnitude
  split
  · decide
  · split
    · exact unbroken_positional _
    · decide

/-- The text of a double does not go over the end of a line. -/
theorem unbroken_values : Trace.UnbrokenValues Float := by
  intro x
  show Unbroken (text x)
  unfold text
  simp only []
  split
  · split
    · refine unbroken_append.mpr ⟨?_, by decide⟩
      split <;> decide
    · decide
  · refine unbroken_append.mpr ⟨?_, unbroken_magnitude _ _⟩
    split <;> decide

end Binary64

end OpTape
