import EffectAudit.Path.Basic
import Mathlib.Data.List.Basic

/-!
# Normalized paths

Normalization goes through the components of a path with a stack of those so far. A step leaves the
stack, takes the name on top away, or puts its component on top. A stack on which every component
could be put is reproduced when its components are gone through again; so normalization is
idempotent, and what follows a path only meets the stack that the path leaves.

## Main definitions

* `FileKey.Reduced`: stacks that are reproduced
* `FileKey.normalForm`: the components of a normalized path

## Main results

* `FileKey.normalize_normalize`: normalization is idempotent
* `FileKey.normalize_append_congr`, `FileKey.normalize_join`: it can be done in parts
* `Path.exists_normalForm`: what normalized paths look like
-/

namespace EffectAudit

/-! ## Components of a path -/

theorem Component.ne_of_ofPiece? {piece : List Char} {c : Component} (h : ofPiece? piece = some c) :
    c ≠ .root ∧ c ≠ .here := by
  unfold ofPiece? at h
  split at h <;> cases h <;> simp

/-- Only the front of a path can be the root or `.`. -/
theorem Path.ne_of_mem_tail_key (p : Path) {c : Component} (hc : c ∈ p.key.tail) :
    c ≠ .root ∧ c ≠ .here := by
  unfold key at hc
  split at hc
  · exact absurd hc List.not_mem_nil
  · rename_i front rest _
    have hmem : c ∈ rest.filterMap Component.ofPiece? := by
      cases hf : Component.ofFront? front rest.isEmpty with
      | none =>
        rw [hf] at hc
        exact List.mem_of_mem_tail hc
      | some first =>
        rw [hf] at hc
        exact hc
    obtain ⟨piece, -, hpiece⟩ := List.mem_filterMap.mp hmem
    exact Component.ne_of_ofPiece? hpiece

namespace FileKey

/-! ## Steps -/

@[simp] theorem normalizeStep_here (done : FileKey) : normalizeStep done .here = done := rfl

@[simp] theorem normalizeStep_name (done : FileKey) (text : String) :
    normalizeStep done (.name text) = .name text :: done := rfl

/-- A step leaves the components so far, takes the name on top away, or puts its component on
top. -/
theorem normalizeStep_cases (done : FileKey) (c : Component) :
    normalizeStep done c = done ∨ (∃ text, done = .name text :: normalizeStep done c) ∨
      normalizeStep done c = c :: done := by
  unfold normalizeStep
  split
  · exact .inl rfl
  · exact .inr (.inl ⟨_, rfl⟩)
  · exact .inr (.inr rfl)

/-- Components, the last one first, of which each could be put on those below. -/
def Reduced : FileKey → Prop
  | [] => True
  | c :: done => normalizeStep done c = c :: done ∧ Reduced done

theorem Reduced.step {done : FileKey} (h : Reduced done) (c : Component) :
    Reduced (normalizeStep done c) := by
  rcases normalizeStep_cases done c with hkept | ⟨text, hpop⟩ | hpush
  · rwa [hkept]
  · rw [hpop] at h
    exact h.2
  · rw [hpush]
    exact ⟨hpush, h⟩

theorem Reduced.foldl {done : FileKey} (h : Reduced done) (key : FileKey) :
    Reduced (key.foldl normalizeStep done) := by
  induction key generalizing done with
  | nil => exact h
  | cons c rest ih => exact ih (h.step c)

/-- Going through a reduced stack from below puts it together again. -/
theorem Reduced.foldl_reverse {done : FileKey} (h : Reduced done) :
    done.reverse.foldl normalizeStep [] = done := by
  induction done with
  | nil => rfl
  | cons c done ih => rw [List.reverse_cons, List.foldl_concat, ih h.2, h.1]

/-! ## Normalization in parts -/

/-- A path and its normalized form leave the same stack. -/
theorem foldl_normalize (key : FileKey) :
    (normalize key).foldl normalizeStep [] = key.foldl normalizeStep [] :=
  Reduced.foldl_reverse (Reduced.foldl (show Reduced [] from trivial) key)

/-- Normalization is idempotent. -/
theorem normalize_normalize (key : FileKey) : normalize (normalize key) = normalize key :=
  congrArg List.reverse (foldl_normalize key)

/-- What follows a path only meets its normalized form. -/
theorem normalize_append_congr {key key' : FileKey} (h : normalize key = normalize key')
    (rest : FileKey) : normalize (key ++ rest) = normalize (key' ++ rest) := by
  unfold normalize at h ⊢
  rw [List.foldl_append, List.foldl_append, List.reverse_injective h]

theorem normalize_concat_name (key : FileKey) (text : String) :
    normalize (key ++ [.name text]) = normalize key ++ [.name text] := by
  unfold normalize
  rw [List.foldl_concat, normalizeStep_name, List.reverse_cons]

theorem foldl_filter_here (key done : FileKey) :
    (key.filter (· ≠ .here)).foldl normalizeStep done = key.foldl normalizeStep done := by
  induction key generalizing done with
  | nil => rfl
  | cons c rest ih =>
    by_cases hc : c = .here
    · subst hc
      exact ih done
    · rw [List.filter_cons_of_pos (by simpa using hc)]
      exact ih (normalizeStep done c)

/-- Joining a relative path goes on from the stack that the directory leaves. -/
theorem foldl_join {dir other : FileKey} (hother : isAbsolute other = false) :
    (join dir other).foldl normalizeStep [] =
      other.foldl normalizeStep (dir.foldl normalizeStep []) := by
  unfold join
  cases dir with
  | nil => simp
  | cons c rest => rw [if_neg (by simp [hother]), List.foldl_append, foldl_filter_here]

/-- A relative path seen from a directory only meets the normalized directory. -/
theorem normalize_join {dir other : FileKey} (hother : isAbsolute other = false) :
    normalize (join dir other) = normalize (join (normalize dir) other) := by
  unfold normalize
  rw [foldl_join hother, foldl_join hother]
  exact congrArg (fun done => (other.foldl normalizeStep done).reverse) (foldl_normalize dir).symm

/-! ## The form of normalized paths -/

/-- The components of a normalized path: the root if it is absolute, then some `..`, then names. -/
def normalForm (absolute : Bool) (ups : Nat) (names : List String) : FileKey :=
  (if absolute then [.root] else []) ++ List.replicate ups .up ++ names.map .name

theorem reverse_normalForm (absolute : Bool) (ups : Nat) (names : List String) :
    (normalForm absolute ups names).reverse = names.reverse.map .name ++
      (List.replicate ups .up ++ if absolute then [.root] else []) := by
  unfold normalForm
  cases absolute <;> simp

theorem isAbsolute_normalForm (absolute : Bool) (ups : Nat) (names : List String) :
    isAbsolute (normalForm absolute ups names) = absolute := by
  unfold normalForm isAbsolute
  cases absolute with
  | true => rfl
  | false =>
    cases ups with
    | zero => cases names <;> rfl
    | succ ups => rfl

theorem here_not_mem_normalForm (absolute : Bool) (ups : Nat) (names : List String) :
    .here ∉ normalForm absolute ups names := by
  unfold normalForm
  cases absolute <;> simp

/-- A step from a stack in normal form leads to one, for every component but the root. -/
theorem exists_normalForm_step (absolute : Bool) (ups : Nat) (names : List String) {c : Component}
    (hc : c ≠ .root) : ∃ ups' names',
      normalizeStep (normalForm absolute ups names).reverse c =
        (normalForm absolute ups' names').reverse := by
  simp only [reverse_normalForm]
  cases c with
  | root => exact absurd rfl hc
  | here => exact ⟨ups, names, rfl⟩
  | name text => exact ⟨ups, names ++ [text], by simp⟩
  | up =>
    rcases names.eq_nil_or_concat with rfl | ⟨names, text, rfl⟩
    · -- without a name to take back `..` is put on others, on the root or on nothing
      refine ⟨ups + 1, [], ?_⟩
      cases ups with
      | zero => cases absolute <;> rfl
      | succ ups => rfl
    · exact ⟨ups, names, by simp [normalizeStep]⟩

theorem exists_normalForm_foldl (absolute : Bool) (ups : Nat) (names : List String) (key : FileKey)
    (hkey : ∀ c ∈ key, c ≠ .root) : ∃ ups' names',
      key.foldl normalizeStep (normalForm absolute ups names).reverse =
        (normalForm absolute ups' names').reverse := by
  induction key generalizing ups names with
  | nil => exact ⟨ups, names, rfl⟩
  | cons c rest ih =>
    obtain ⟨ups', names', hstep⟩ :=
      exists_normalForm_step absolute ups names (hkey c List.mem_cons_self)
    rw [List.foldl_cons, hstep]
    exact ih ups' names' fun d hd => hkey d (List.mem_cons_of_mem c hd)

end FileKey

open FileKey in
/-- A normalized path is absolute if the path is, and has all its `..` before its names. -/
theorem Path.exists_normalForm (p : Path) :
    ∃ ups names, FileKey.normalize p.key = normalForm (isAbsolute p.key) ups names := by
  have htail := fun c hc => (p.ne_of_mem_tail_key (c := c) hc).1
  suffices h : ∃ ups names, p.key.foldl normalizeStep [] =
      (normalForm (isAbsolute p.key) ups names).reverse by
    obtain ⟨ups, names, h⟩ := h
    exact ⟨ups, names, by rw [FileKey.normalize, h, List.reverse_reverse]⟩
  cases hkey : p.key with
  | nil => exact ⟨0, [], rfl⟩
  | cons c rest =>
    rw [hkey] at htail
    by_cases hc : c = .root
    · subst hc
      exact exists_normalForm_foldl true 0 [] rest htail
    · have habs : isAbsolute (c :: rest) = false := by simp [isAbsolute, hc]
      rw [habs]
      refine exists_normalForm_foldl false 0 [] (c :: rest) fun d hd => ?_
      rcases List.mem_cons.mp hd with rfl | hd
      · exact hc
      · exact htail d hd

end EffectAudit
