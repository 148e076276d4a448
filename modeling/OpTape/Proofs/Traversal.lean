import OpTape.Usage
/-
  Looking a list up through a table that may fail. A look-up of the whole list succeeds exactly
  when each entry does, and then the list of answers is the image of the list.
-/
namespace OpTape

variable {α β γ δ ε : Type}

theorem append_list_eq (xs : Array α) (l : List α) : xs ++ l = xs ++ l.toArray := by
  apply Array.ext'
  simp

theorem guard_bind_eq_some_iff {p : Prop} [Decidable p] {f : Unit → Option α} {a : α} :
    (guard p >>= f) = some a ↔ p ∧ f () = some a := by
  show (if p then some () else none).bind f = some a ↔ p ∧ f () = some a
  by_cases h : p
  · simp [h]
  · simp [h]

theorem bind_eq_ok_iff {x : Except ε α} {f : α → Except ε β} {b : β} :
    x >>= f = .ok b ↔ ∃ a, x = .ok a ∧ f a = .ok b := by
  cases x with
  | error e => simp [bind, Except.bind]
  | ok a => simp [bind, Except.bind]

theorem bind_eq_error_iff {x : Except ε α} {f : α → Except ε β} {e : ε} :
    x >>= f = .error e ↔ x = .error e ∨ ∃ a, x = .ok a ∧ f a = .error e := by
  cases x with
  | error e => simp [bind, Except.bind]
  | ok a => simp [bind, Except.bind]

theorem bind_congr_of_ok {x : Except ε α} {f g : α → Except ε β} (h : ∀ a, x = .ok a → f a = g a) :
    x >>= f = x >>= g := by
  cases x with
  | error e => rfl
  | ok a => exact h a rfl

theorem map_eq_ok_iff {x : Except ε α} {f : α → β} {b : β} :
    f <$> x = .ok b ↔ ∃ a, x = .ok a ∧ f a = b := by
  cases x <;> simp [Functor.map, Except.map]

theorem mapError_eq_ok_iff {ε' : Type} {x : Except ε α} {f : ε → ε'} {a : α} :
    x.mapError f = .ok a ↔ x = .ok a := by
  cases x with
  | error e => constructor <;> (intro h; cases h)
  | ok b =>
    exact ⟨fun h => congrArg Except.ok (Except.ok.inj h),
      fun h => congrArg Except.ok (Except.ok.inj h)⟩

theorem mapError_eq_error_iff {ε' : Type} {x : Except ε α} {f : ε → ε'} {e' : ε'} :
    x.mapError f = .error e' ↔ ∃ e, x = .error e ∧ f e = e' := by
  cases x with
  | error e =>
    constructor
    · intro h
      exact ⟨e, rfl, Except.error.inj h⟩
    · rintro ⟨_, ⟨⟩, rfl⟩
      rfl
  | ok b =>
    constructor
    · intro h
      cases h
    · rintro ⟨e, h, -⟩
      cases h

theorem mapM_eq_some_iff {f : α → Option β} {xs : List α} {ys : List β} :
    xs.mapM f = some ys ↔ xs.map f = ys.map some := by
  induction xs generalizing ys with
  | nil => cases ys <;> simp
  | cons x xs ih =>
    cases ys with
    | nil => simp [Option.bind_eq_some_iff]
    | cons y ys =>
      simp only [List.mapM_cons, Option.bind_eq_bind, Option.bind_eq_some_iff, List.map_cons,
        List.cons.injEq, ← ih]
      constructor
      · rintro ⟨a, ha, bs, hbs, h⟩
        obtain ⟨rfl, rfl⟩ : a = y ∧ bs = ys := by simpa using h
        exact ⟨ha, hbs⟩
      · rintro ⟨ha, hbs⟩
        exact ⟨y, ha, ys, hbs, rfl⟩

theorem mapM_eq_ok_iff {f : α → Except ε β} {xs : List α} {ys : List β} :
    xs.mapM f = .ok ys ↔ xs.map f = ys.map .ok := by
  induction xs generalizing ys with
  | nil => cases ys <;> simp [pure, Except.pure]
  | cons x xs ih =>
    cases ys with
    | nil => simp [List.mapM_cons, bind_eq_ok_iff, pure, Except.pure]
    | cons y ys =>
      simp only [List.mapM_cons, bind_eq_ok_iff, List.map_cons, List.cons.injEq, ← ih]
      constructor
      · rintro ⟨a, ha, bs, hbs, h⟩
        obtain ⟨rfl, rfl⟩ : a = y ∧ bs = ys := by simpa [pure, Except.pure] using h
        exact ⟨ha, hbs⟩
      · rintro ⟨ha, hbs⟩
        exact ⟨y, ha, ys, hbs, rfl⟩

theorem length_of_mapM_some {f : α → Option β} {xs : List α} {ys : List β}
    (h : xs.mapM f = some ys) : ys.length = xs.length := by
  have hlen := congrArg List.length (mapM_eq_some_iff.mp h)
  simpa using hlen.symm

theorem length_of_mapM_ok {f : α → Except ε β} {xs : List α} {ys : List β}
    (h : xs.mapM f = .ok ys) : ys.length = xs.length := by
  have hlen := congrArg List.length (mapM_eq_ok_iff.mp h)
  simpa using hlen.symm

theorem exists_of_mem_mapM {f : α → Option β} {xs : List α} {ys : List β}
    (h : xs.mapM f = some ys) {y : β} (hy : y ∈ ys) : ∃ x ∈ xs, f x = some y := by
  have hmem : some y ∈ xs.map f := by
    rw [mapM_eq_some_iff.mp h]
    exact List.mem_map_of_mem hy
  simpa using hmem

theorem exists_mapM_some {f : α → Option β} {xs : List α} (h : ∀ x ∈ xs, ∃ y, f x = some y) :
    ∃ ys, xs.mapM f = some ys := by
  induction xs with
  | nil => exact ⟨[], rfl⟩
  | cons x xs ih =>
    obtain ⟨y, hy⟩ := h x List.mem_cons_self
    obtain ⟨ys, hys⟩ := ih fun a ha => h a (List.mem_cons_of_mem x ha)
    exact ⟨y :: ys, by simp [hy, hys]⟩

/-- A table that says more finds the same answers. -/
theorem mapM_mono_of_some {f g : α → Option β} {xs : List α} {ys : List β}
    (h : xs.mapM f = some ys) (hfg : ∀ x ∈ xs, ∀ y, f x = some y → g x = some y) :
    xs.mapM g = some ys := by
  rw [mapM_eq_some_iff] at h ⊢
  rw [← h]
  refine List.map_congr_left fun x hx => ?_
  obtain ⟨y, -, hy⟩ := List.mem_map.mp (h ▸ List.mem_map_of_mem hx)
  rw [← hy]
  exact hfg x hx y hy.symm

theorem ok_of_mem_mapM {f : α → Except ε β} {xs : List α} {ys : List β}
    (h : xs.mapM f = .ok ys) {x : α} (hx : x ∈ xs) : ∃ y, f x = .ok y := by
  have hmem : f x ∈ ys.map .ok := by
    rw [← mapM_eq_ok_iff.mp h]
    exact List.mem_map_of_mem hx
  obtain ⟨y, -, heq⟩ := List.mem_map.mp hmem
  exact ⟨y, heq.symm⟩

theorem exists_mapM_ok {f : α → Except ε β} {xs : List α} (h : ∀ x ∈ xs, ∃ y, f x = .ok y) :
    ∃ ys, xs.mapM f = .ok ys := by
  induction xs with
  | nil => exact ⟨[], rfl⟩
  | cons x xs ih =>
    obtain ⟨y, hy⟩ := h x List.mem_cons_self
    obtain ⟨ys, hys⟩ := ih fun a ha => h a (List.mem_cons_of_mem x ha)
    refine ⟨y :: ys, ?_⟩
    simp only [List.mapM_cons, bind_eq_ok_iff]
    exact ⟨y, hy, ys, hys, rfl⟩

/-- A table that says the same entry by entry says the same of the whole list. -/
theorem map_of_mapM_ok {f : α → Except ε β} {g : α → Option β} {xs : List α} {ys : List β}
    (h : xs.mapM f = .ok ys) (hg : ∀ x y, f x = .ok y → g x = some y) :
    xs.map g = ys.map some := by
  rw [mapM_eq_ok_iff] at h
  induction xs generalizing ys with
  | nil => cases ys <;> simp_all
  | cons x xs ih =>
    cases ys with
    | nil => cases h
    | cons y ys =>
      obtain ⟨hy, hys⟩ := List.cons.inj h
      rw [List.map_cons, List.map_cons, hg x y hy, ih hys]

theorem exists_foldlM_ok {f : δ → α → Except ε δ} {xs : List α}
    (h : ∀ d, ∀ x ∈ xs, ∃ d', f d x = .ok d') (d : δ) : ∃ d', xs.foldlM f d = .ok d' := by
  induction xs generalizing d with
  | nil => exact ⟨d, rfl⟩
  | cons x xs ih =>
    obtain ⟨d₁, hd₁⟩ := h d x List.mem_cons_self
    obtain ⟨d', hd'⟩ := ih (fun d a ha => h d a (List.mem_cons_of_mem x ha)) d₁
    exact ⟨d', by rw [List.foldlM_cons, hd₁]; exact hd'⟩

/-- The images of a list and of its answers agree when the second reads at each answer what the
first reads there. -/
theorem map_congr_of_mapM {f : α → Option β} {g : α → γ} {g' : β → γ} {xs : List α} {ys : List β}
    (h : xs.mapM f = some ys) (hg : ∀ x ∈ xs, ∀ y, f x = some y → g' y = g x) :
    ys.map g' = xs.map g := by
  rw [mapM_eq_some_iff] at h
  induction xs generalizing ys with
  | nil => cases ys <;> simp_all
  | cons x xs ih =>
    cases ys with
    | nil => simp at h
    | cons y ys =>
      obtain ⟨hy, hys⟩ := List.cons.inj h
      rw [List.map_cons, List.map_cons, hg x List.mem_cons_self y hy,
        ih hys fun a ha => hg a (List.mem_cons_of_mem x ha)]

/-- Two traversals agree when the second reads at each answer what the first reads there. -/
theorem mapM_congr_of_mapM {m : Type → Type} [Monad m] [LawfulMonad m] {f : α → Option β}
    {g : α → m γ} {g' : β → m γ} {xs : List α} {ys : List β} (h : xs.mapM f = some ys)
    (hg : ∀ x ∈ xs, ∀ y, f x = some y → g' y = g x) : ys.mapM g' = xs.mapM g := by
  rw [mapM_eq_some_iff] at h
  induction xs generalizing ys with
  | nil => cases ys <;> simp_all
  | cons x xs ih =>
    cases ys with
    | nil => simp at h
    | cons y ys =>
      obtain ⟨hy, hys⟩ := List.cons.inj h
      rw [List.mapM_cons, List.mapM_cons, hg x List.mem_cons_self y hy,
        ih hys fun a ha => hg a (List.mem_cons_of_mem x ha)]

theorem foldlM_congr_of_mapM {m : Type → Type} [Monad m] [LawfulMonad m] {f : α → Option β}
    {g : α → m γ} {g' : β → m γ} {xs : List α} {ys : List β} (h : xs.mapM f = some ys)
    (hg : ∀ x ∈ xs, ∀ y, f x = some y → g' y = g x) (step : δ → γ → δ) (d : δ) :
    ys.foldlM (fun d y => return step d (← g' y)) d
      = xs.foldlM (fun d x => return step d (← g x)) d := by
  rw [mapM_eq_some_iff] at h
  induction xs generalizing ys d with
  | nil => cases ys <;> simp_all
  | cons x xs ih =>
    cases ys with
    | nil => simp at h
    | cons y ys =>
      obtain ⟨hy, hys⟩ := List.cons.inj h
      rw [List.foldlM_cons, List.foldlM_cons, hg x List.mem_cons_self y hy]
      congr 1
      funext d'
      exact ih hys (fun a ha => hg a (List.mem_cons_of_mem x ha)) d'

end OpTape
