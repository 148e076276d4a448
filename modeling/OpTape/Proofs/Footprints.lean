import OpTape.Merging
import OpTape.Proofs.Representation
import OpTape.Proofs.Selection
import Mathlib.Algebra.Order.BigOperators.Group.List
import Mathlib.Algebra.Order.Group.Nat
import Mathlib.Data.List.Nodup
import Mathlib.Data.List.Perm.Subperm
/-
  How much of a tape is left. The footprint of a usage is what it takes of each column, apart from
  the indices it holds; no pass that renames operands changes it. The counts of a tape can be read
  off the footprints of its usages, so they do not grow where the footprints of the one tape are
  some of those of the other (`Tape.within_of_subperm`). Dropping dead code leaves the footprints
  of the needed usages (`IsNeededPart.footprints_eq`).
-/
namespace OpTape

variable {V : Type}

/-- What a usage takes of the columns of a packed tape. -/
structure Footprint where
  kind : Kind
  resultCount : Nat
  operandCount : Nat
  /-- The texts that it writes. -/
  texts : List String

/-- The size of the argument slice. -/
def Footprint.sliceSize (f : Footprint) : Nat :=
  f.kind.headerSize + f.operandCount + f.kind.trailerSize

namespace Usage

def texts : Usage V → List String
  | print before after _ _ => [before, after]
  | _ => []

def footprint (u : Usage V) : Footprint :=
  { kind := u.kind, resultCount := u.resultCount, operandCount := u.args.length, texts := u.texts }

variable {u u' w : Usage V} {value vector : Nat → Option Nat}

theorem Renames.footprint_eq (h : Renames value vector u u') : u'.footprint = u.footprint := by
  have hlength : u'.args.length = u.args.length := by
    rw [← List.length_map some, ← h.map_args, List.length_map]
  have htexts : u'.texts = u.texts := by cases h <;> rfl
  rw [footprint, footprint, h.kind_eq, h.resultCount_eq, hlength, htexts]

theorem footprint_ordered (u : Usage V) : u.ordered.footprint = u.footprint := by
  cases u with
  | binary op x y =>
    simp only [ordered]
    split <;> rfl
  | _ => rfl

/-- Inputs that are bound to zero stay inputs. -/
theorem Carried.footprint_eq {r : Registry V} {needed : Nat → Bool} {zeroIndex first : Nat}
    (h : Carried r needed zeroIndex value vector first u u') : u'.footprint = u.footprint := by
  cases h with
  | renamed _ h => exact h.footprint_eq
  | rebound _ h =>
    have hlength := length_of_mapM_some h
    rw [List.length_zip, Vector.length_toList, Nat.min_self] at hlength
    simp only [footprint, args, hlength]
    rfl

end Usage

/-! ## Counting columns -/

theorem sum_map_le_of_subperm {α : Type} {xs ys : List α} (h : xs.Subperm ys) (f : α → Nat) :
    (xs.map f).sum ≤ (ys.map f).sum := by
  obtain ⟨zs, hperm, hsublist⟩ := h
  rw [← (hperm.map f).sum_nat]
  exact (hsublist.map f).sum_le_sum fun _ _ => Nat.zero_le _

/-- The images of a list are some of those of another if each entry has one of its own there. -/
theorem subperm_map_of_relation {α β γ : Type} {R : α → β → Prop} {xs : List α} {ys : List β}
    {f : α → γ} {g : β → γ} (hxs : xs.Nodup) (h : ∀ a ∈ xs, ∃ b ∈ ys, R a b ∧ f a = g b)
    (hunique : ∀ a ∈ xs, ∀ a' ∈ xs, ∀ b, R a b → R a' b → a = a') :
    (xs.map f).Subperm (ys.map g) := by
  classical
  induction xs generalizing ys with
  | nil => exact List.nil_subperm
  | cons a xs ih =>
    obtain ⟨b, hb, hab, hfg⟩ := h a List.mem_cons_self
    have hrest : (xs.map f).Subperm ((ys.erase b).map g) := by
      refine ih hxs.of_cons (fun a' ha' => ?_) fun a₁ h₁ a₂ h₂ =>
        hunique a₁ (List.mem_cons_of_mem a h₁) a₂ (List.mem_cons_of_mem a h₂)
      obtain ⟨b', hb', hab', hfg'⟩ := h a' (List.mem_cons_of_mem a ha')
      have hne : b' ≠ b := by
        rintro rfl
        obtain rfl := hunique a List.mem_cons_self a' (List.mem_cons_of_mem a ha') b' hab hab'
        exact (List.nodup_cons.mp hxs).1 ha'
      exact ⟨b', (List.mem_erase_of_ne hne).mpr hb', hab', hfg'⟩
    have hperm : (ys.map g).Perm (f a :: (ys.erase b).map g) :=
      hfg ▸ (List.perm_cons_erase hb).map g
    exact ((List.subperm_cons (f a)).mpr hrest).trans hperm.symm.subperm

theorem mem_intern {strings : Array String} {text s : String} :
    s ∈ intern strings text ↔ s ∈ strings ∨ s = text := by
  unfold intern
  split
  · rename_i hold
    exact ⟨.inl, fun h => h.elim id fun heq => heq ▸ hold⟩
  · exact Array.mem_push

namespace Packed

theorem length_slice (p : Packed V) (u : Usage V) :
    (p.slice u).length = u.footprint.sliceSize := by
  obtain ⟨header, trailer, hslice, hheader, htrailer, -⟩ := slice_eq p u
  rw [hslice, List.length_append, List.length_append, hheader, htrailer]
  rfl

theorem size_args_foldl (p : Packed V) (us : List (Usage V)) : (us.foldl push p).args.size
    = p.args.size + (us.map fun u => u.footprint.sliceSize).sum := by
  induction us generalizing p with
  | nil => rfl
  | cons u us ih =>
    rw [List.foldl_cons, ih, size_args_push, length_slice, List.map_cons, List.sum_cons]
    omega

theorem mem_strings_push {p : Packed V} {u : Usage V} {s : String} :
    s ∈ (p.push u).strings ↔ s ∈ p.strings ∨ s ∈ u.texts := by
  cases u with
  | print before after x y => simp [push, Usage.texts, mem_intern, or_assoc]
  | _ => simp [push, Usage.texts]

theorem mem_strings_foldl {p : Packed V} {us : List (Usage V)} {s : String} :
    s ∈ (us.foldl push p).strings ↔ s ∈ p.strings ∨ ∃ u ∈ us, s ∈ u.texts := by
  induction us generalizing p with
  | nil => simp
  | cons u us ih => rw [List.foldl_cons, ih, mem_strings_push, List.exists_mem_cons_iff, or_assoc]

end Packed

/-- None of the counts that the usages determine is larger. -/
structure Stats.Within (s s' : Stats) : Prop where
  values : s.values ≤ s'.values
  ops : s.ops ≤ s'.ops
  args : s.args ≤ s'.args
  constants : s.constants ≤ s'.constants
  strings : s.strings ≤ s'.strings
  vectors : s.vectors ≤ s'.vectors

namespace Tape

variable [Scalar V] {t t' : Tape V}

def footprints (t : Tape V) : List Footprint := t.usages.map Usage.footprint

theorem footprints_placed (t : Tape V) :
    t.footprints = t.placed.map fun (_, u) => u.footprint := by
  rw [footprints, ← Usage.map_snd_placed t.zeroPlace t.usages, List.map_map]
  rfl

theorem stats_values (t : Tape V) :
    t.stats.values = t.indCount + (t.footprints.map Footprint.resultCount).sum := by
  rw [footprints, List.map_map]
  exact t.resultTotal_usages.symm.trans (congrArg _ (Usage.sum_map_resultCount t.usages).symm)

theorem stats_ops (t : Tape V) : t.stats.ops = t.footprints.length := by
  have hsize : t.stats.ops = 0 + t.usages.length := Packed.size_kinds_foldl {} t.usages
  rw [hsize, Nat.zero_add, footprints, List.length_map]

theorem stats_args (t : Tape V) : t.stats.args = (t.footprints.map Footprint.sliceSize).sum := by
  have hsize : t.stats.args = 0 + (t.usages.map fun u => u.footprint.sliceSize).sum :=
    Packed.size_args_foldl {} t.usages
  rw [hsize, Nat.zero_add, footprints, List.map_map]
  rfl

theorem stats_constants (t : Tape V) :
    t.stats.constants = t.footprints.countP (·.kind = .constant) := by
  have hsize : t.stats.constants = 0 + t.usages.countP (·.kind = .constant) :=
    Packed.size_foldl (·.constants.size) Packed.size_constants_push {} t.usages
  rw [hsize, Nat.zero_add, footprints, List.countP_map]
  rfl

theorem stats_vectors (t : Tape V) :
    t.stats.vectors = t.footprints.countP (·.kind = .vector) := by
  have hsize : t.stats.vectors = 0 + t.usages.countP (·.kind = .vector) :=
    Packed.size_foldl (·.vectors.size) Packed.size_vectors_push {} t.usages
  rw [hsize, Nat.zero_add, footprints, List.countP_map]
  rfl

theorem mem_strings_pack {s : String} :
    s ∈ t.pack.strings.toList ↔ s = "" ∨ ∃ f ∈ t.footprints, s ∈ f.texts := by
  rw [Array.mem_toList_iff, pack, Packed.ofUsages, Packed.mem_strings_foldl]
  simp [footprints, Usage.footprint]

/-- Some of the footprints take no more of any column than all of them. -/
theorem within_of_subperm (hind : t'.indCount = t.indCount)
    (h : t'.footprints.Subperm t.footprints) : t'.stats.Within t.stats where
  values := by
    rw [stats_values, stats_values, hind]
    exact Nat.add_le_add_left (sum_map_le_of_subperm h _) _
  ops := by
    rw [stats_ops, stats_ops]
    exact h.length_le
  args := by
    rw [stats_args, stats_args]
    exact sum_map_le_of_subperm h _
  constants := by
    rw [stats_constants, stats_constants]
    exact h.countP_le _
  strings := by
    have hnodup := Packed.nodup_strings_foldl {} t'.usages (by simp)
    refine (List.Nodup.subperm hnodup fun s hs => ?_).length_le
    rcases mem_strings_pack.mp hs with rfl | ⟨f, hf, hs⟩
    · exact mem_strings_pack.mpr (.inl rfl)
    · exact mem_strings_pack.mpr (.inr ⟨f, h.subset hf, hs⟩)
  vectors := by
    rw [stats_vectors, stats_vectors]
    exact h.countP_le _

/-- The same footprints in another order have the same counts. -/
theorem stats_eq_of_perm (hind : t'.indCount = t.indCount)
    (hdeps : t'.dependents.length = t.dependents.length)
    (h : t'.footprints.Perm t.footprints) : t'.stats = t.stats := by
  have hless := within_of_subperm hind h.subperm
  have hmore := within_of_subperm hind.symm h.symm.subperm
  show Stats.mk _ _ _ _ _ _ _ _ = Stats.mk _ _ _ _ _ _ _ _
  rw [Stats.mk.injEq]
  exact ⟨hind, Nat.le_antisymm hless.values hmore.values, Nat.le_antisymm hless.ops hmore.ops,
    Nat.le_antisymm hless.args hmore.args, Nat.le_antisymm hless.constants hmore.constants,
    Nat.le_antisymm hless.strings hmore.strings, Nat.le_antisymm hless.vectors hmore.vectors,
    hdeps⟩

/-! ## What dropping dead code leaves of the columns -/

variable {r : Registry V} {needed usage : Nat → Bool} {value vector : Nat → Option Nat}

/-- The needed usages of a tape, with their places and positions. -/
def neededAt (t : Tape V) (usage : Nat → Bool) : List ((Place × Usage V) × Nat) :=
  t.placed.zipIdx.filter fun (_, k) => usage k

theorem mem_neededAt {k : Nat} {p : Place} {u : Usage V} :
    ((p, u), k) ∈ t.neededAt usage ↔ t.placed[k]? = some (p, u) ∧ usage k = true := by
  rw [neededAt, List.mem_filter, List.mem_zipIdx_iff_getElem?]

theorem nodup_neededAt (t : Tape V) (usage : Nat → Bool) : (t.neededAt usage).Nodup := by
  have hpositions : (t.placed.zipIdx.map Prod.snd).Nodup := by
    rw [List.zipIdx_map_snd]
    exact List.nodup_range'
  exact (List.Nodup.of_map _ hpositions).filter _

theorem IsNeededPart.footprints_eq (h : t.IsNeededPart r needed usage t' value vector) :
    t'.footprints = (t.neededAt usage).map fun ((_, u), _) => u.footprint := by
  rw [t'.footprints_placed, ← List.forall₂_eq_eq_eq, List.forall₂_map_left_iff,
    List.forall₂_map_right_iff]
  exact h.usages.flip.imp fun _ _ hu => hu.1.footprint_eq

/-- Dropping dead code leaves some of the footprints. -/
theorem IsNeededPart.subperm (h : t.IsNeededPart r needed usage t' value vector) :
    t'.footprints.Subperm t.footprints := by
  have hall : (t.placed.zipIdx.map fun ((_, u), _) => u.footprint) = t.footprints := by
    have hplaced := congrArg (List.map fun (_, u) => u.footprint) (List.zipIdx_map_fst 0 t.placed)
    rw [List.map_map] at hplaced
    exact hplaced.trans t.footprints_placed.symm
  rw [h.footprints_eq, ← hall]
  exact (List.filter_sublist.map _).subperm

end Tape

end OpTape
