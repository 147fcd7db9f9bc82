import Mathlib.Logic.Function.Basic

/-!
# A file that is replaced whole

Processes replace one file: each writes a file of its own beside it, and renames that one to it.
A write may be cut short and leave anything in the file it writes; a rename happens or does not.

* `Replacing`         the file, and the files of the processes, all of them different;
* `Replacing.write`   a process writes its own file (`write_target`, `write_other`);
* `Replacing.swap`    and puts it in place (`swap_some`).
-/

namespace Lib

abbrev Disk (P Raw : Type) := P → Option Raw

structure Replacing (ι P : Type) where
  target : P
  own : ι → P
  apart : Function.Injective own
  beside : ∀ i, own i ≠ target

namespace Replacing
variable {ι P Raw : Type} [DecidableEq P] (R : Replacing ι P)

/-- process `i` leaves `content` in its own file -/
def write (d : Disk P Raw) (i : ι) (content : Option Raw) : Disk P Raw :=
  Function.update d (R.own i) content

/-- process `i` renames its own file to the target; `none` when it is missing -/
def swap (d : Disk P Raw) (i : ι) : Option (Disk P Raw) :=
  (d (R.own i)).map fun raw =>
    Function.update (Function.update d (R.own i) none) R.target (some raw)

variable {R} {d : Disk P Raw} {i j : ι}

theorem write_target (content : Option Raw) : R.write d i content R.target = d R.target :=
  Function.update_of_ne (R.beside i).symm ..

theorem write_own (content : Option Raw) : R.write d i content (R.own i) = content :=
  Function.update_self ..

theorem write_other (h : j ≠ i) (content : Option Raw) :
    R.write d i content (R.own j) = d (R.own j) :=
  Function.update_of_ne (fun he => h (R.apart he)) ..

/-- **A rename** puts what the process wrote in place, and leaves the files of the others. -/
theorem swap_some {d' : Disk P Raw} (h : R.swap d i = some d') :
    ∃ raw, d (R.own i) = some raw ∧ d' R.target = some raw ∧
      ∀ j, j ≠ i → d' (R.own j) = d (R.own j) := by
  obtain ⟨raw, hraw, rfl⟩ := Option.map_eq_some_iff.mp h
  refine ⟨raw, hraw, Function.update_self .., fun j hj => ?_⟩
  rw [Function.update_of_ne (R.beside j), Function.update_of_ne fun he => hj (R.apart he)]

end Replacing
end Lib
