import EffectAudit.Diagnostic.Finding
import Mathlib.Data.List.Basic

/-!
# What messages tell

Messages put names into quotation marks, and names of functions may hold quotation marks themselves.
The names of effects do not. So what stands behind the last quotation mark can be told from a
message, and with it the function and the effect that a report on effects is about.

## Main results

* `eq_of_append_quote`: what stands behind the last quotation mark
* `Finding.eq_of_message_missingEffect`, `Finding.eq_of_message_unusedEffect`: reports that name an
  effect
* `Finding.eq_of_message_pureDeclaresEffects`, `Finding.message_pureCallsEffectful_ne`: reports on
  pure functions
-/

namespace EffectAudit

theorem Effect.name_inj {e e' : Effect} (h : e.name = e'.name) : e = e' := by
  revert h
  cases e <;> cases e' <;> decide

theorem Effect.not_mem_name (e : Effect) : ∀ c ∈ e.name.toList, decide (c ≠ '`') = true := by
  have hall : e.name.toList.all (fun c => decide (c ≠ '`')) = true := by cases e <;> rfl
  exact List.all_eq_true.mp hall

/-- What stands behind the last quotation mark of a text is determined by the text. -/
theorem eq_of_append_quote {before before' name name' : List Char}
    (hname : ∀ c ∈ name, decide (c ≠ '`') = true) (hname' : ∀ c ∈ name', decide (c ≠ '`') = true)
    (h : before ++ '`' :: name = before' ++ '`' :: name') : name = name' := by
  -- a name is read from the end of the text up to the first mark
  have hread : ∀ before name : List Char, (∀ c ∈ name, decide (c ≠ '`') = true) →
      (before ++ '`' :: name).reverse.takeWhile (· ≠ '`') = name.reverse := by
    intro before name hname
    rw [List.reverse_append, List.reverse_cons, List.append_assoc, List.takeWhile_append_of_pos
      fun c hc => hname c (List.mem_reverse.mp hc)]
    simp
  have hrev := congrArg (fun l => l.reverse.takeWhile (· ≠ '`')) h
  rw [hread before name hname, hread before' name' hname'] at hrev
  exact List.reverse_inj.mp hrev

/-- What holds of the characters of a separator and of some texts holds of those of the joined
text. -/
theorem forall_mem_intercalate {P : Char → Prop} {sep : List Char} (hsep : ∀ c ∈ sep, P c)
    {parts : List (List Char)} (hparts : ∀ part ∈ parts, ∀ c ∈ part, P c) :
    ∀ c ∈ sep.intercalate parts, P c := by
  unfold List.intercalate
  induction parts with
  | nil => simp
  | cons part rest ih =>
    obtain ⟨hpart, hrest⟩ := List.forall_mem_cons.mp hparts
    cases rest with
    | nil => simpa using hpart
    | cons next rest =>
      rw [List.intersperse_cons_cons, List.flatten_cons, List.flatten_cons, List.forall_mem_append,
        List.forall_mem_append]
      exact ⟨hpart, hsep, ih hrest⟩

theorem EffectSet.not_mem_text (s : EffectSet) : ∀ c ∈ s.text.toList, decide (c ≠ '`') = true := by
  have hopen : ∀ c ∈ "[".toList, decide (c ≠ '`') = true := by simp
  have hsep : ∀ c ∈ ", ".toList, decide (c ≠ '`') = true := by simp
  have hclose : ∀ c ∈ "]".toList, decide (c ≠ '`') = true := by simp
  unfold text
  rw [String.toList_append, String.toList_append, String.toList_intercalate, List.forall_mem_append,
    List.forall_mem_append]
  refine ⟨⟨hopen, forall_mem_intercalate hsep fun part hpart => ?_⟩, hclose⟩
  obtain ⟨name, hname, rfl⟩ := List.mem_map.mp hpart
  obtain ⟨e, -, rfl⟩ := List.mem_map.mp hname
  exact e.not_mem_name

/-- Words without quotation marks, with effects behind them. -/
theorem EffectSet.not_mem_append_text {words : String}
    (hwords : ∀ c ∈ words.toList, decide (c ≠ '`') = true) (s : EffectSet) :
    ∀ c ∈ (words ++ s.text).toList, decide (c ≠ '`') = true := by
  rw [String.toList_append, List.forall_mem_append]
  exact ⟨hwords, s.not_mem_text⟩

/-- A text determines the function and the effect that it names, the effect in quotation marks of
its own behind a text of which the last character is one of them. -/
theorem eq_of_effect_text {front between quoted back function function' : String} {e e' : Effect}
    (hquoted : quoted = between ++ "`")
    (h : front ++ function ++ quoted ++ e.name ++ back =
      front ++ function' ++ quoted ++ e'.name ++ back) : function = function' ∧ e = e' := by
  subst hquoted
  have hlist := congrArg String.toList h
  simp only [String.toList_append] at hlist
  have hname := List.append_cancel_right hlist
  -- the effect comes first: with it the rest can be cancelled on both sides of the function
  have heffect : e = e' := by
    have hquote : ∀ (function : String) (e : Effect),
        front.toList ++ function.toList ++ (between.toList ++ "`".toList) ++ e.name.toList =
          (front.toList ++ function.toList ++ between.toList) ++ '`' :: e.name.toList := by
      intro function e
      simp
    rw [hquote, hquote] at hname
    exact Effect.name_inj (String.toList_inj.mp
      (eq_of_append_quote e.not_mem_name e'.not_mem_name hname))
  subst heffect
  have hfront := List.append_cancel_right (List.append_cancel_right hname)
  exact ⟨String.toList_inj.mp (List.append_cancel_left hfront), rfl⟩

namespace Finding

theorem eq_of_message_missingEffect {f f' chain chain' : String} {e e' : Effect} {s s' : EffectSet}
    (h : (missingEffect f e chain s).message = (missingEffect f' e' chain' s').message) :
    f = f' ∧ e = e' := by
  have h : "function `" ++ f ++ "` requires effect `" ++ e.name ++ "` but does not declare it" =
      "function `" ++ f' ++ "` requires effect `" ++ e'.name ++ "` but does not declare it" := h
  have hquoted : "` requires effect `" = "` requires effect " ++ "`" := rfl
  exact eq_of_effect_text hquoted h

theorem eq_of_message_unusedEffect {f f' : String} {e e' : Effect}
    (h : (unusedEffect f e).message = (unusedEffect f' e').message) : f = f' ∧ e = e' := by
  have h : "function `" ++ f ++ "` declares effect `" ++ e.name ++ "` but never uses it" =
      "function `" ++ f' ++ "` declares effect `" ++ e'.name ++ "` but never uses it" := h
  have hquoted : "` declares effect `" = "` declares effect " ++ "`" := rfl
  exact eq_of_effect_text hquoted h

/-- What a report on a pure function says behind the last quotation mark. -/
theorem quote_message_pureDeclaresEffects (f : String) (declared : EffectSet) :
    (pureDeclaresEffects f declared).message.toList =
      ("pure function `" ++ f).toList ++ '`' :: (" declares effects " ++ declared.text).toList := by
  show ("pure function `" ++ f ++ "` declares effects " ++ declared.text).toList = _
  have hquote : "` declares effects ".toList = '`' :: " declares effects ".toList := rfl
  simp only [String.toList_append, hquote, List.append_assoc, List.cons_append]

theorem quote_message_pureCallsEffectful (f callee : String) (effects : EffectSet) :
    (pureCallsEffectful f callee effects).message.toList =
      ("pure function `" ++ f ++ "` calls `" ++ callee).toList ++
        '`' :: (", which requires " ++ effects.text).toList := by
  show ("pure function `" ++ f ++ "` calls `" ++ callee ++ "`, which requires " ++
    effects.text).toList = _
  have hquote : "`, which requires ".toList = '`' :: ", which requires ".toList := rfl
  simp only [String.toList_append, hquote, List.append_assoc, List.cons_append]

theorem not_mem_declares (s : EffectSet) :
    ∀ c ∈ (" declares effects " ++ s.text).toList, decide (c ≠ '`') = true :=
  s.not_mem_append_text (by simp)

theorem not_mem_requires (s : EffectSet) :
    ∀ c ∈ (", which requires " ++ s.text).toList, decide (c ≠ '`') = true :=
  s.not_mem_append_text (by simp)

theorem eq_of_message_pureDeclaresEffects {f f' : String} {declared declared' : EffectSet}
    (h : (pureDeclaresEffects f declared).message = (pureDeclaresEffects f' declared').message) :
    f = f' := by
  have hlist := congrArg String.toList h
  rw [quote_message_pureDeclaresEffects, quote_message_pureDeclaresEffects] at hlist
  -- the sets are printed alike, which is all that is needed to cancel them
  rw [eq_of_append_quote (not_mem_declares _) (not_mem_declares _) hlist] at hlist
  have hfront := List.append_cancel_right hlist
  rw [String.toList_append, String.toList_append] at hfront
  exact String.toList_inj.mp (List.append_cancel_left hfront)

theorem message_pureCallsEffectful_ne {f f' callee : String} {effects declared : EffectSet} :
    (pureCallsEffectful f callee effects).message ≠ (pureDeclaresEffects f' declared).message := by
  intro h
  have hlist := congrArg String.toList h
  rw [quote_message_pureCallsEffectful, quote_message_pureDeclaresEffects] at hlist
  have hbehind := eq_of_append_quote (not_mem_requires _) (not_mem_declares _) hlist
  rw [String.toList_append, String.toList_append] at hbehind
  -- one goes on with a comma and the other with a blank
  have hcomma := congrArg List.head? hbehind
  cases hcomma

end Finding

end EffectAudit
