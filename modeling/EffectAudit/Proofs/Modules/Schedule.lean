import EffectAudit.Modules.Schedule
import EffectAudit.Proofs.OrderedMap
import EffectAudit.Proofs.Sorting
import Mathlib.Data.Fintype.Card
import Mathlib.Data.Fintype.EquivFin
import Mathlib.Data.Fintype.Sets
import Mathlib.Data.List.Nodup
import Mathlib.Logic.Relation
import Mathlib.Order.WellFounded

/-!
# Counting files off

The counts of a schedule are set up from the live files that a file depends on, each counted once.
They are taken down from the other side: a file that is listed is counted off for every file that
depends on it, live or not. Both sides go by the same dependencies, so a count always is the number
of live files that are still awaited. It comes down to zero when the last of them is listed, and not
before.

## Main definitions

* `Schedule.awaited`: the files that a file waits for
* `Schedule.Holds`: the files and the counts of a schedule
* `Schedule.Next`: a file that can come next
* `Schedule.Stands`: the schedule of the files that are left

## Main results

* `Schedule.Holds.release`, `Schedule.Holds.foldl_release`: what counting off does
* `Schedule.stands_start`, `Schedule.Stands.pop`: the schedule in the beginning and after each file
* `Schedule.Stands.list_next`, `Schedule.Stands.mem_list`: what is listed, and when
-/

namespace EffectAudit

open Relation

/-! ## Dependencies from both sides -/

namespace ModuleGraph

variable {edges : List ImportEdge} {u v : FileKey}

theorem mem_dependenciesIn :
    v ∈ dependenciesIn edges u ↔ ∃ e ∈ edges, e.importer = u ∧ e.target = v := by
  unfold dependenciesIn sorted
  rw [mem_dropRepeats, mem_sortBy, List.mem_map]
  simp only [List.mem_filter, beq_iff_eq, and_assoc]

/-- A file depends on those of which it is a dependent. -/
theorem mem_dependentsIn : u ∈ dependentsIn edges v ↔ v ∈ dependenciesIn edges u := by
  rw [mem_dependenciesIn]
  unfold dependentsIn sorted
  rw [mem_dropRepeats, mem_sortBy, List.mem_map]
  simp only [List.mem_filter, beq_iff_eq]
  exact exists_congr fun e => ⟨fun ⟨⟨he, ht⟩, hi⟩ => ⟨he, hi, ht⟩,
    fun ⟨he, hi, ht⟩ => ⟨⟨he, ht⟩, hi⟩⟩

theorem nodup_dependenciesIn (edges : List ImportEdge) (u : FileKey) :
    (dependenciesIn edges u).Nodup := nodup_dropRepeats_sorted _

theorem nodup_dependentsIn (edges : List ImportEdge) (v : FileKey) :
    (dependentsIn edges v).Nodup := nodup_dropRepeats_sorted _

end ModuleGraph

namespace Schedule

open ModuleGraph

/-- The live files that a file waits for when the given files are listed. -/
def awaited (edges : List ImportEdge) (isLive : FileKey → Bool) (listed : List FileKey)
    (key : FileKey) : List FileKey :=
  (dependenciesIn edges key).filter fun dep => isLive dep && decide (dep ∉ listed)

section Awaited

variable {edges : List ImportEdge} {isLive : FileKey → Bool} {listed : List FileKey}

theorem mem_awaited {key dep : FileKey} : dep ∈ awaited edges isLive listed key ↔
    dep ∈ dependenciesIn edges key ∧ isLive dep = true ∧ dep ∉ listed := by
  unfold awaited
  rw [List.mem_filter, Bool.and_eq_true, decide_eq_true_eq]

theorem awaited_nil (key : FileKey) :
    awaited edges isLive [] key = (dependenciesIn edges key).filter isLive := by
  unfold awaited
  simp

/-- A live file that is listed is awaited no more by the files that depend on it, and makes no
difference to the others. -/
theorem length_awaited_concat {last : FileKey} (hlive : isLive last = true) (hlast : last ∉ listed)
    (key : FileKey) : (awaited edges isLive (listed ++ [last]) key).length =
      if key ∈ dependentsIn edges last then (awaited edges isLive listed key).length - 1
      else (awaited edges isLive listed key).length := by
  have hnodup : (awaited edges isLive listed key).Nodup := (nodup_dependenciesIn edges key).filter _
  have herase : awaited edges isLive (listed ++ [last]) key =
      (awaited edges isLive listed key).filter (· ≠ last) := by
    unfold awaited
    rw [List.filter_filter]
    refine List.filter_congr fun dep _ => ?_
    rw [Bool.eq_iff_iff]
    simp only [List.mem_append, List.mem_singleton, Bool.and_eq_true, decide_eq_true_eq, not_or]
    tauto
  rw [herase]
  split
  · rename_i hkey
    have hmem : last ∈ awaited edges isLive listed key :=
      mem_awaited.mpr ⟨mem_dependentsIn.mp hkey, hlive, hlast⟩
    have hfilter : (awaited edges isLive listed key).filter (· ≠ last) =
        (awaited edges isLive listed key).erase last := by
      rw [hnodup.erase_eq_filter]
      exact List.filter_congr fun dep _ => by by_cases h : dep = last <;> simp [h]
    rw [hfilter, List.length_erase_of_mem hmem]
  · rename_i hkey
    rw [List.filter_eq_self.mpr]
    intro dep hdep
    refine decide_eq_true fun heq => hkey ?_
    exact mem_dependentsIn.mpr (heq ▸ (mem_awaited.mp hdep).1)

end Awaited

/-! ## What a schedule holds -/

/-- A schedule has the files that are left, and counts for each of them as many files as `count`
says. -/
structure Holds (left : FileKey → Prop) (count : FileKey → Nat) (s : Schedule) : Prop where
  waiting : ∀ key n, s.waiting.get? key = some n ↔ left key ∧ count key = n ∧ n ≠ 0
  ready : ∀ key, key ∈ s.ready ↔ left key ∧ count key = 0
  sorted : s.ready.Pairwise fun a b => atMost a b = true
  nodup : s.ready.Nodup

variable {left : FileKey → Prop} {count : FileKey → Nat} {s : Schedule}

theorem Holds.congr {left' : FileKey → Prop} {count' : FileKey → Nat} (h : s.Holds left count)
    (hleft : ∀ key, left key ↔ left' key) (hcount : ∀ key, left' key → count key = count' key) :
    s.Holds left' count' where
  waiting key n := by
    rw [h.waiting, hleft]
    exact and_congr_right fun hkey => by rw [hcount key hkey]
  ready key := by
    rw [h.ready, hleft]
    exact and_congr_right fun hkey => by rw [hcount key hkey]
  sorted := h.sorted
  nodup := h.nodup

theorem sorted_push (hs : s.ready.Pairwise fun a b => atMost a b = true) (key : FileKey) :
    (s.push key).ready.Pairwise fun a b => atMost a b = true :=
  pairwise_insertBy atMost_total atMost_trans hs

theorem nodup_push (hs : s.ready.Nodup) {key : FileKey} (hkey : key ∉ s.ready) :
    (s.push key).ready.Nodup :=
  (perm_insertBy atMost key s.ready).nodup_iff.mpr (List.nodup_cons.mpr ⟨hkey, hs⟩)

theorem mem_ready_push {key other : FileKey} :
    other ∈ (s.push key).ready ↔ other = key ∨ other ∈ s.ready := mem_insertBy

/-- A file that waits no more can come next. -/
theorem Holds.makeReady (h : s.Holds left count) {key : FileKey} (hnot : key ∉ s.ready)
    {waiting : OrderedMap FileKey Nat}
    (hwaiting : ∀ k, waiting.get? k = if k = key then none else s.waiting.get? k) :
    (({ s with waiting } : Schedule).push key).Holds (fun k => left k ∨ k = key) fun k =>
      if k = key then 0 else count k := by
  refine ⟨fun k n => ?_, fun k => ?_, sorted_push h.sorted key, nodup_push h.nodup hnot⟩
  · show waiting.get? k = some n ↔ _
    rw [hwaiting]
    by_cases hk : k = key
    · rw [if_pos hk, if_pos hk]
      constructor
      · intro hcontra
        cases hcontra
      · rintro ⟨-, hn, hne⟩
        exact absurd hn.symm hne
    · rw [if_neg hk, if_neg hk, or_iff_left hk]
      exact h.waiting k n
  · rw [mem_ready_push]
    by_cases hk : k = key
    · rw [if_pos hk]
      exact iff_of_true (.inl hk) ⟨.inr hk, rfl⟩
    · rw [if_neg hk, or_iff_right hk, or_iff_left hk]
      exact h.ready k

/-- A file that cannot come next waits for some files. -/
theorem Holds.makeWait (h : s.Holds left count) {key : FileKey} (hnot : key ∉ s.ready) {n : Nat}
    (hn : n ≠ 0) :
    Holds (fun k => left k ∨ k = key) (fun k => if k = key then n else count k)
      { s with waiting := s.waiting.insert key n } := by
  refine ⟨fun k m => ?_, fun k => ?_, h.sorted, h.nodup⟩
  · show (s.waiting.insert key n).get? k = some m ↔ _
    rw [OrderedMap.get?_insert_eq_ite]
    by_cases hk : k = key
    · rw [if_pos hk, if_pos hk, Option.some.injEq]
      exact ⟨fun heq => ⟨.inr hk, heq, heq ▸ hn⟩, fun hm => hm.2.1⟩
    · rw [if_neg hk, if_neg hk, or_iff_left hk]
      exact h.waiting k m
  · show k ∈ s.ready ↔ _
    by_cases hk : k = key
    · rw [if_pos hk]
      exact iff_of_false (hk ▸ hnot) fun hm => hn hm.2
    · rw [if_neg hk, or_iff_left hk]
      exact h.ready k

/-- Counting a file off takes one from the count of the file that waits for it. -/
theorem Holds.release (h : s.Holds left count) (key : FileKey) :
    (s.release key).Holds left fun k => if k = key then count k - 1 else count k := by
  unfold Schedule.release
  cases hget : s.waiting.get? key with
  | none =>
    -- the file is not left, or its count is zero already
    refine h.congr (fun _ => Iff.rfl) fun k hk => ?_
    split
    · rename_i heq
      have hzero : ¬ count k ≠ 0 := fun hne => by
        have hsome := (h.waiting k (count k)).mpr ⟨hk, rfl, hne⟩
        rw [heq, hget] at hsome
        cases hsome
      omega
    · rfl
  | some n =>
    obtain ⟨hkey, hcount, hne⟩ := (h.waiting key n).mp hget
    have hnot : key ∉ s.ready := fun hmem => hne (hcount ▸ ((h.ready key).mp hmem).2)
    have hleft : ∀ k, left k ∨ k = key ↔ left k := fun k => or_iff_left_of_imp fun hk => hk ▸ hkey
    have hone : ∀ k m, n - 1 = m →
        (if k = key then m else count k) = if k = key then count k - 1 else count k := by
      intro k m hm
      split
      · rename_i hk
        rw [hk, hcount, hm]
      · rfl
    dsimp only
    split
    · rename_i hzero
      refine (h.makeReady hnot (OrderedMap.get?_erase_eq_ite s.waiting key)).congr hleft ?_
      exact fun k _ => hone k 0 hzero
    · rename_i hpos
      exact (h.makeWait hnot hpos).congr hleft fun k _ => hone k _ rfl

/-- Counting a file off for different files takes one from the count of each. -/
theorem Holds.foldl_release (h : s.Holds left count) {keys : List FileKey} (hkeys : keys.Nodup) :
    (keys.foldl Schedule.release s).Holds left fun k =>
      if k ∈ keys then count k - 1 else count k := by
  induction keys generalizing s count with
  | nil => exact h.congr (fun _ => Iff.rfl) fun _ _ => by simp
  | cons key rest ih =>
    obtain ⟨hnot, hrest⟩ := List.nodup_cons.mp hkeys
    refine (ih (h.release key) hrest).congr (fun _ => Iff.rfl) fun k _ => ?_
    by_cases hk : k = key
    · subst hk
      simp [hnot]
    · simp [hk]

/-! ## One file after the other -/

section Listing

variable {edges : List ImportEdge} {isLive : FileKey → Bool} {files listed : List FileKey}

/-- A live file that is not listed. -/
def Left (isLive : FileKey → Bool) (files listed : List FileKey) (key : FileKey) : Prop :=
  key ∈ files ∧ isLive key = true ∧ key ∉ listed

/-- A live file can come next behind the listed ones: all live files that it depends on are
listed. -/
def Next (edges : List ImportEdge) (isLive : FileKey → Bool) (files listed : List FileKey)
    (key : FileKey) : Prop :=
  Left isLive files listed key ∧
    ∀ dep ∈ dependenciesIn edges key, isLive dep = true → dep ∈ listed

/-- The schedule of the files that are left when the given ones are listed. -/
def Stands (edges : List ImportEdge) (isLive : FileKey → Bool) (files listed : List FileKey)
    (s : Schedule) : Prop :=
  s.Holds (Left isLive files listed) fun key => (awaited edges isLive listed key).length

/-- The files that can come next are those that wait for none. -/
theorem Stands.mem_ready_iff (h : s.Stands edges isLive files listed) {key : FileKey} :
    key ∈ s.ready ↔ Next edges isLive files listed key := by
  rw [h.ready]
  refine and_congr_right fun _ => ?_
  rw [List.length_eq_zero_iff, List.eq_nil_iff_forall_not_mem]
  simp only [mem_awaited, not_and, not_not]

/-- Entering a file adds it with the number of live files that it depends on. -/
theorem Holds.enter (h : s.Holds left fun key => (awaited edges isLive [] key).length)
    {key : FileKey} (hkey : ¬ left key) :
    (s.enter edges isLive key).Holds (fun k => left k ∨ k = key)
      fun k => (awaited edges isLive [] k).length := by
  have hnot : key ∉ s.ready := fun hmem => hkey ((h.ready key).mp hmem).1
  have hwaiting : ∀ k, s.waiting.get? k = if k = key then none else s.waiting.get? k := by
    intro k
    split
    · rename_i hk
      refine Option.eq_none_iff_forall_not_mem.mpr fun n hn => hkey ?_
      exact hk ▸ ((h.waiting k n).mp hn).1
    · rfl
  have hcount : ∀ k n, (awaited edges isLive [] key).length = n →
      (if k = key then n else (awaited edges isLive [] k).length) =
        (awaited edges isLive [] k).length := by
    intro k n hn
    split
    · rename_i hk
      rw [hk, hn]
    · rfl
  unfold Schedule.enter
  rw [← awaited_nil]
  dsimp only
  split
  · rename_i hzero
    exact (h.makeReady hnot hwaiting).congr (fun _ => Iff.rfl) fun k _ => hcount k 0 hzero
  · rename_i hpos
    exact (h.makeWait hnot hpos).congr (fun _ => Iff.rfl) fun k _ => hcount k _ rfl

/-- In the beginning all live files are left. -/
theorem stands_start (hfiles : files.Nodup) :
    (start edges isLive files).Stands edges isLive files [] := by
  have hfold : ∀ (keys : List FileKey) (left : FileKey → Prop) (s : Schedule), keys.Nodup →
      (∀ key ∈ keys, ¬ left key) →
      (s.Holds left fun key => (awaited edges isLive [] key).length) →
      (keys.foldl (Schedule.enter edges isLive) s).Holds (fun k => left k ∨ k ∈ keys)
        fun key => (awaited edges isLive [] key).length := by
    intro keys
    induction keys with
    | nil => exact fun left s _ _ h => h.congr (by simp) fun _ _ => rfl
    | cons key rest ih =>
      intro left s hkeys hnot h
      obtain ⟨hkey, hrest⟩ := List.nodup_cons.mp hkeys
      refine (ih _ _ hrest (fun k hk => ?_) (h.enter (hnot key List.mem_cons_self))).congr
        (fun k => ?_) fun _ _ => rfl
      · rintro (hl | rfl)
        · exact hnot k (List.mem_cons_of_mem _ hk) hl
        · exact hkey hk
      · rw [List.mem_cons, or_assoc]
  have hnone : ({} : Schedule).Holds (fun _ => False)
      fun key => (awaited edges isLive [] key).length := by
    refine ⟨fun key n => ?_, fun key => ?_, .nil, .nil⟩
    · exact ⟨fun h => (by cases h), fun h => h.1.elim⟩
    · exact ⟨fun h => absurd h List.not_mem_nil, fun h => h.1.elim⟩
  refine (hfold _ _ _ (hfiles.filter _) (fun _ _ h => h) hnone).congr (fun key => ?_) fun _ _ => rfl
  rw [List.mem_filter]
  simp [Left]

/-- When the first file is listed, it is counted off for the files that depend on it. -/
theorem Stands.pop {waiting : OrderedMap FileKey Nat} {key : FileKey} {ready : List FileKey}
    (h : Stands edges isLive files listed ⟨waiting, key :: ready⟩) :
    ((dependentsIn edges key).foldl Schedule.release ⟨waiting, ready⟩).Stands edges isLive files
      (listed ++ [key]) := by
  obtain ⟨-, hsorted⟩ := List.pairwise_cons.mp h.sorted
  obtain ⟨hnot, hnodup⟩ := List.nodup_cons.mp h.nodup
  obtain ⟨hleft, hzero⟩ := (h.ready key).mp List.mem_cons_self
  -- the schedule without its first file
  have hrest : Holds (fun k => Left isLive files listed k ∧ k ≠ key)
      (fun k => (awaited edges isLive listed k).length) ⟨waiting, ready⟩ := by
    refine ⟨fun k n => ?_, fun k => ?_, hsorted, hnodup⟩
    · refine (h.waiting k n).trans ⟨fun ⟨hk, hn, hne⟩ => ⟨⟨hk, ?_⟩, hn, hne⟩,
        fun ⟨hk, hn⟩ => ⟨hk.1, hn⟩⟩
      rintro rfl
      exact hne (hn.symm.trans hzero)
    · constructor
      · intro hmem
        obtain ⟨hk, hn⟩ := (h.ready k).mp (List.mem_cons_of_mem _ hmem)
        exact ⟨⟨hk, fun heq => hnot (heq ▸ hmem)⟩, hn⟩
      · rintro ⟨⟨hk, hne⟩, hn⟩
        exact (List.mem_cons.mp ((h.ready k).mpr ⟨hk, hn⟩)).resolve_left hne
  refine (hrest.foldl_release (nodup_dependentsIn edges key)).congr (fun k => ?_) fun k _ => ?_
  · simp only [Left, List.mem_append, List.mem_singleton, not_or]
    tauto
  · exact (length_awaited_concat hleft.2.1 hleft.2.2 k).symm

/-- **Every file that is listed can come next when its turn comes, and is the first that can.** -/
theorem Stands.list_next (h : s.Stands edges isLive files listed) {before after : List FileKey}
    {key : FileKey} (hlist : s.list edges = before ++ key :: after) :
    Next edges isLive files (listed ++ before) key ∧
      ∀ other, Next edges isLive files (listed ++ before) other → atMost key other = true := by
  induction before generalizing s listed with
  | nil =>
    obtain ⟨waiting, _ | ⟨first, ready⟩⟩ := s
    · rw [list] at hlist
      cases hlist
    · rw [list, List.nil_append, List.cons.injEq] at hlist
      obtain ⟨rfl, -⟩ := hlist
      rw [List.append_nil]
      refine ⟨h.mem_ready_iff.mp List.mem_cons_self, fun other hother => ?_⟩
      rcases List.mem_cons.mp (h.mem_ready_iff.mpr hother) with rfl | hmem
      · exact (atMost_total other other).elim id id
      · exact (List.pairwise_cons.mp h.sorted).1 other hmem
  | cons first before ih =>
    obtain ⟨waiting, _ | ⟨first', ready⟩⟩ := s
    · rw [list] at hlist
      cases hlist
    · rw [list, List.cons_append, List.cons.injEq] at hlist
      obtain ⟨rfl, hrest⟩ := hlist
      have hstep := ih h.pop hrest
      rwa [List.append_assoc] at hstep

/-- As long as a file is left that is on no cycle of dependencies, one can come next: among the
files that are left there is one that waits for no other. -/
theorem exists_next (hfiles : ∀ key ∈ files, ∀ dep ∈ dependenciesIn edges key, dep ∈ files)
    (hacyclic : ∀ key, Left isLive files listed key →
      ¬ TransGen (fun u v => v ∈ dependenciesIn edges u) key key)
    {key : FileKey} (hkey : Left isLive files listed key) :
    ∃ next, Next edges isLive files listed next := by
  -- where nothing depends on itself, depending on something is a well-founded relation
  let pending : List FileKey := files.filter fun k => isLive k && decide (k ∉ listed)
  have hpending : ∀ k, k ∈ pending ↔ Left isLive files listed k := by
    intro k
    simp [pending, Left]
  let below (i j : { k // k ∈ pending }) : Prop :=
    TransGen (fun u v => v ∈ dependenciesIn edges u) j.1 i.1
  have htrans : IsTrans _ below := ⟨fun _ _ _ hij hjk => hjk.trans hij⟩
  have hirrefl : Std.Irrefl below := ⟨fun i => hacyclic i.1 ((hpending i.1).mp i.2)⟩
  have hwf : WellFounded below := Finite.wellFounded_of_trans_of_irrefl below
  obtain ⟨⟨least, hmem⟩, -, hleast⟩ := hwf.has_min Set.univ
    ⟨⟨key, (hpending key).mpr hkey⟩, trivial⟩
  have hleft := (hpending least).mp hmem
  refine ⟨least, hleft, fun dep hdep hlive => ?_⟩
  by_contra hnot
  exact hleast ⟨dep, (hpending dep).mpr ⟨hfiles least hleft.1 dep hdep, hlive, hnot⟩⟩ trivial
    (.single hdep)

/-- **Exactly the files that are left are listed**, each once, if none of them is on a cycle of
dependencies. -/
theorem Stands.mem_list (h : s.Stands edges isLive files listed)
    (hfiles : ∀ key ∈ files, ∀ dep ∈ dependenciesIn edges key, dep ∈ files)
    (hacyclic : ∀ key, Left isLive files listed key →
      ¬ TransGen (fun u v => v ∈ dependenciesIn edges u) key key) :
    (s.list edges).Nodup ∧ ∀ key, key ∈ s.list edges ↔ Left isLive files listed key := by
  fun_induction list edges s generalizing listed with
  | case1 waiting =>
    refine ⟨.nil, fun key => ⟨fun hmem => absurd hmem List.not_mem_nil, fun hkey => ?_⟩⟩
    obtain ⟨next, hnext⟩ := exists_next hfiles hacyclic hkey
    exact absurd (h.mem_ready_iff.mpr hnext) List.not_mem_nil
  | case2 waiting first ready ih =>
    have hfirst := (h.mem_ready_iff.mp List.mem_cons_self).1
    have hleft : ∀ key, Left isLive files (listed ++ [first]) key ↔
        Left isLive files listed key ∧ key ≠ first := by
      intro key
      simp only [Left, List.mem_append, List.mem_singleton, not_or]
      tauto
    obtain ⟨hnodup, hmem⟩ := ih h.pop fun key hkey => hacyclic key ((hleft key).mp hkey).1
    refine ⟨List.nodup_cons.mpr ⟨fun hcontra => ?_, hnodup⟩, fun key => ?_⟩
    · exact ((hleft first).mp ((hmem first).mp hcontra)).2 rfl
    · rw [List.mem_cons, hmem, hleft]
      constructor
      · rintro (rfl | hkey)
        · exact hfirst
        · exact hkey.1
      · intro hkey
        by_cases heq : key = first
        · exact .inl heq
        · exact .inr ⟨hkey, heq⟩

end Listing

end Schedule

end EffectAudit
