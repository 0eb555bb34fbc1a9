import GraphNaming.Proofs.Numbering
import Mathlib.Data.List.Sort
import Mathlib.Data.Set.Function

/-!
# Swaps of names

Some names of a set make way for new ones.

* `substitute`: what swaps make of a name.
* `mem_foldl_replace`: what they make of a set of names.
* `Replaced`: the swaps tell two sets of names apart; `Replaced.foldl_replace`: those that make one
  of the other do.
* `ChosenInTurn`, `SwapsFor`: the swaps for the names that are blocked, each new name with the
  smallest number possible; `SwapsFor.unique`: there is one choice.
* `SwapsFor.injOn`, `SwapsFor.not_blocked`: no two names become one, and none is blocked.
-/

namespace GraphNaming

/-! ## What swaps do -/

/-- The name that takes the place of `name`, which is `name` itself unless it is swapped. -/
def substitute : List (String × String) → String → String
  | [], name => name
  | (old, new) :: swaps, name => if name = old then new else substitute swaps name

variable {swaps : List (String × String)} {name : String}

theorem substitute_of_not_mem (h : name ∉ swaps.map (·.1)) : substitute swaps name = name := by
  induction swaps with
  | nil => rfl
  | cons swap swaps ih =>
    rw [List.map_cons, List.mem_cons, not_or] at h
    rw [substitute, if_neg h.1, ih h.2]

theorem mem_of_mem_olds (h : name ∈ swaps.map (·.1)) : (name, substitute swaps name) ∈ swaps := by
  induction swaps with
  | nil => cases h
  | cons swap swaps ih =>
    by_cases hname : name = swap.1
    · rw [substitute, if_pos hname, hname]
      exact List.mem_cons_self
    · rw [substitute, if_neg hname]
      exact List.mem_cons_of_mem _ (ih ((List.mem_cons.1 h).resolve_left hname))

theorem substitute_of_mem (hn : (swaps.map (·.1)).Nodup) {swap : String × String}
    (hs : swap ∈ swaps) : substitute swaps swap.1 = swap.2 :=
  congrArg Prod.snd (List.inj_on_of_nodup_map hn
    (mem_of_mem_olds (List.mem_map_of_mem (f := Prod.fst) hs)) hs rfl)

/-- Swaps of other names make no difference. -/
theorem substitute_filter {p : String × String → Bool}
    (h : ∀ swap ∈ swaps, swap.1 = name → p swap = true) :
    substitute (swaps.filter p) name = substitute swaps name := by
  induction swaps with
  | nil => rfl
  | cons swap swaps ih =>
    obtain ⟨hswap, hswaps⟩ := List.forall_mem_cons.1 h
    rw [List.filter_cons]
    by_cases hname : name = swap.1
    · rw [if_pos (hswap hname.symm), substitute, substitute, if_pos hname, if_pos hname]
    · split
      · rw [substitute, substitute, if_neg hname, if_neg hname, ih hswaps]
      · rw [ih hswaps, substitute, if_neg hname]

/-- Swapping one name after the other substitutes all at once, if what comes in is never swapped
again. -/
theorem mem_foldl_replace (hold : (swaps.map (·.1)).Nodup)
    (hnew : ∀ swap ∈ swaps, swap.2 ∉ swaps.map (·.1)) {names : AliasSet} :
    name ∈ swaps.foldl (fun names swap => names.replace swap.1 swap.2) names ↔
      ∃ other ∈ names, substitute swaps other = name := by
  induction swaps generalizing names with
  | nil => simp [substitute]
  | cons swap swaps ih =>
    obtain ⟨old, new⟩ := swap
    obtain ⟨hfirst, hold⟩ := List.nodup_cons.1 hold
    obtain ⟨hnot, hnew⟩ := List.forall_mem_cons.1 hnew
    rw [List.map_cons, List.mem_cons, not_or] at hnot
    rw [List.foldl_cons, ih hold fun swap hs h => hnew swap hs (List.mem_cons_of_mem _ h)]
    -- The name that just came in is no old name of a later swap, so it stays; a name that is not
    -- there to be swapped changes nothing.
    by_cases hmem : old ∈ names
    · simp only [AliasSet.mem_replace hmem]
      constructor
      · rintro ⟨other, rfl | ⟨ho, hne⟩, hsub⟩
        · rw [substitute_of_not_mem hnot.2] at hsub
          exact ⟨old, hmem, by rw [substitute, if_pos rfl]; exact hsub⟩
        · exact ⟨other, ho, by rw [substitute, if_neg hne, hsub]⟩
      · rintro ⟨other, ho, hsub⟩
        by_cases hother : other = old
        · rw [substitute, if_pos hother] at hsub
          exact ⟨new, .inl rfl, by rw [substitute_of_not_mem hnot.2, hsub]⟩
        · rw [substitute, if_neg hother] at hsub
          exact ⟨other, .inr ⟨ho, hother⟩, hsub⟩
    · have hsame : names.replace old new = names := by rw [AliasSet.replace, if_neg hmem]
      rw [hsame]
      refine exists_congr fun other => and_congr_right fun ho => ?_
      have hne : other ≠ old := fun h => hmem (h ▸ ho)
      rw [substitute, if_neg hne]

/-! ## What swaps tell -/

/-- The swaps tell exactly what is different in `after`. -/
structure Replaced (before : AliasSet) (swaps : List (String × String)) (after : AliasSet) :
    Prop where
  olds_nodup : (swaps.map (·.1)).Nodup
  news_nodup : (swaps.map (·.2)).Nodup
  old : ∀ swap ∈ swaps, swap.1 ∈ before ∧ swap.1 ∉ after
  new : ∀ swap ∈ swaps, swap.2 ∈ after ∧ swap.2 ∉ before
  mem_iff : ∀ name, name ∈ after ↔
    name ∈ before ∧ name ∉ swaps.map (·.1) ∨ name ∈ swaps.map (·.2)
  length_eq : after.toList.length = before.toList.length

namespace Replaced

variable {before after : AliasSet}

theorem refl (names : AliasSet) : Replaced names [] names where
  olds_nodup := .nil
  news_nodup := .nil
  old := nofun
  new := nofun
  mem_iff := by simp
  length_eq := rfl

/-- New names that were not there take the place of names that were. -/
theorem of_mem_iff (hold : (swaps.map (·.1)).Nodup) (hnew : (swaps.map (·.2)).Nodup)
    (hmem : ∀ swap ∈ swaps, swap.1 ∈ before) (hnot : ∀ swap ∈ swaps, swap.2 ∉ before)
    (h : ∀ name, name ∈ after ↔
      name ∈ before ∧ name ∉ swaps.map (·.1) ∨ name ∈ swaps.map (·.2)) :
    Replaced before swaps after where
  olds_nodup := hold
  news_nodup := hnew
  old swap hs := by
    refine ⟨hmem swap hs, fun hafter => ?_⟩
    rcases (h swap.1).1 hafter with ⟨-, hkept⟩ | hcame
    · exact hkept (List.mem_map_of_mem hs)
    · obtain ⟨other, ho, hsame⟩ := List.mem_map.1 hcame
      exact hnot other ho (hsame ▸ hmem swap hs)
  new swap hs := ⟨(h swap.2).2 (.inr (List.mem_map_of_mem hs)), hnot swap hs⟩
  mem_iff := h
  length_eq := by
    have hkept := before.nodup_toList.filter (· ∉ swaps.map (·.1))
    have hafter : after.toList.Perm
        (before.toList.filter (· ∉ swaps.map (·.1)) ++ swaps.map (·.2)) := by
      refine (List.perm_ext_iff_of_nodup after.nodup_toList
        (hkept.append hnew ?_)).2 fun name => ?_
      · intro name hn hcame
        obtain ⟨swap, hs, rfl⟩ := List.mem_map.1 hcame
        exact hnot swap hs (List.mem_of_mem_filter hn)
      · simpa [-List.mem_map] using h name
    have hbefore : before.toList.Perm
        (before.toList.filter (· ∉ swaps.map (·.1)) ++ swaps.map (·.1)) := by
      refine (List.perm_ext_iff_of_nodup before.nodup_toList
        (hkept.append hold ?_)).2 fun name => ?_
      · exact fun name hn ho => by simpa [ho] using List.mem_filter.1 hn
      · have hsub : name ∈ swaps.map (·.1) → name ∈ before := fun ho => by
          obtain ⟨swap, hs, rfl⟩ := List.mem_map.1 ho
          exact hmem swap hs
        by_cases ho : name ∈ swaps.map (·.1) <;> simp [-List.mem_map, ho, hsub]
    rw [hafter.length_eq, hbefore.length_eq]
    simp

/-- Swapping one name after the other loses none of them. -/
theorem foldl_replace (hold : (swaps.map (·.1)).Nodup) (hnew : (swaps.map (·.2)).Nodup)
    (hmem : ∀ swap ∈ swaps, swap.1 ∈ before) (hnot : ∀ swap ∈ swaps, swap.2 ∉ before) :
    Replaced before swaps
      (swaps.foldl (fun names swap => names.replace swap.1 swap.2) before) := by
  have hagain : ∀ swap ∈ swaps, swap.2 ∉ swaps.map (·.1) := by
    intro swap hs ho
    obtain ⟨other, ho, hsame⟩ := List.mem_map.1 ho
    exact hnot swap hs (hsame ▸ hmem other ho)
  refine of_mem_iff hold hnew hmem hnot fun name => ?_
  rw [mem_foldl_replace hold hagain]
  constructor
  · rintro ⟨other, ho, rfl⟩
    by_cases hswapped : other ∈ swaps.map (·.1)
    · exact .inr (List.mem_map_of_mem (mem_of_mem_olds hswapped))
    · rw [substitute_of_not_mem hswapped]
      exact .inl ⟨ho, hswapped⟩
  · rintro (⟨hn, hkept⟩ | hcame)
    · exact ⟨name, hn, substitute_of_not_mem hkept⟩
    · obtain ⟨swap, hs, rfl⟩ := List.mem_map.1 hcame
      exact ⟨swap.1, hmem swap hs, substitute_of_mem hold hs⟩

end Replaced

/-! ## Which names are swapped -/

variable {first : Nat} {blocked names : Set String}

/-- The old names make way for the new ones one after the other. Each new name has the smallest
number, from `first` on, for which it is neither blocked nor chosen before. -/
def ChosenInTurn (first : Nat) (blocked : Set String) : List (String × String) → Prop
  | [] => True
  | (old, new) :: swaps =>
    FirstNumbered (numberedAlias old) first blocked new ∧
      ChosenInTurn first (insert new blocked) swaps

namespace ChosenInTurn

theorem unique {swaps' : List (String × String)} (h : ChosenInTurn first blocked swaps)
    (h' : ChosenInTurn first blocked swaps') (holds : swaps.map (·.1) = swaps'.map (·.1)) :
    swaps = swaps' := by
  induction swaps generalizing blocked swaps' with
  | nil => exact (List.map_eq_nil_iff.1 holds.symm).symm
  | cons swap swaps ih =>
    cases swaps' with
    | nil => cases holds
    | cons swap' swaps' =>
      obtain ⟨old, new⟩ := swap
      obtain ⟨old', new'⟩ := swap'
      obtain ⟨rfl, hrest⟩ := List.cons.inj holds
      obtain rfl := h.1.unique h'.1
      rw [ih h.2 h'.2 hrest]

theorem not_mem (h : ChosenInTurn first blocked swaps) : ∀ swap ∈ swaps, swap.2 ∉ blocked := by
  induction swaps generalizing blocked with
  | nil => nofun
  | cons swap swaps ih =>
    exact List.forall_mem_cons.2
      ⟨h.1.not_mem, fun other ho hb => ih h.2 other ho (Set.mem_insert_of_mem _ hb)⟩

/-- No new name is chosen twice. -/
theorem nodup (h : ChosenInTurn first blocked swaps) : (swaps.map (·.2)).Nodup := by
  induction swaps generalizing blocked with
  | nil => exact List.nodup_nil
  | cons swap swaps ih =>
    refine List.nodup_cons.2 ⟨fun hm => ?_, ih h.2⟩
    obtain ⟨other, ho, hsame⟩ := List.mem_map.1 hm
    exact h.2.not_mem other ho (Set.mem_insert_iff.2 (.inl hsame))

end ChosenInTurn

/-- Those of `names` that are blocked make way in ascending order. The others are kept, and no new
name is one of them. -/
structure SwapsFor (first : Nat) (blocked names : Set String) (swaps : List (String × String)) :
    Prop where
  ascending : (swaps.map (·.1)).Pairwise (· < ·)
  olds : ∀ name, name ∈ swaps.map (·.1) ↔ name ∈ names ∧ name ∈ blocked
  chosen : ChosenInTurn first (blocked ∪ {name | name ∈ names ∧ name ∉ blocked}) swaps

namespace SwapsFor

variable (h : SwapsFor first blocked names swaps)
include h

theorem unique {swaps' : List (String × String)} (h' : SwapsFor first blocked names swaps') :
    swaps = swaps' := by
  refine h.chosen.unique h'.chosen (h.ascending.eq_of_mem_iff h'.ascending fun name => ?_)
  rw [h.olds, h'.olds]

theorem nodup : (swaps.map (·.1)).Nodup := AliasSet.nodup_toList ⟨_, h.ascending⟩

/-- A new name is neither blocked nor one of the names that there were. -/
theorem new_not_mem {swap : String × String} (hs : swap ∈ swaps) :
    swap.2 ∉ blocked ∧ swap.2 ∉ names := by
  have hnew := h.chosen.not_mem swap hs
  exact ⟨fun hb => hnew (.inl hb), fun hn => hnew (or_iff_not_imp_left.2 fun hb => ⟨hn, hb⟩)⟩

/-- No new name is to be swapped. -/
theorem not_mem_olds {swap : String × String} (hs : swap ∈ swaps) : swap.2 ∉ swaps.map (·.1) :=
  fun hm => (h.new_not_mem hs).2 ((h.olds _).1 hm).1

theorem substitute_of_not_blocked (hb : name ∉ blocked) : substitute swaps name = name :=
  substitute_of_not_mem fun hm => hb ((h.olds name).1 hm).2

theorem mem_of_blocked (hn : name ∈ names) (hb : name ∈ blocked) :
    (name, substitute swaps name) ∈ swaps := mem_of_mem_olds ((h.olds name).2 ⟨hn, hb⟩)

theorem not_blocked (hn : name ∈ names) : substitute swaps name ∉ blocked := by
  by_cases hb : name ∈ blocked
  · exact (h.new_not_mem (h.mem_of_blocked hn hb)).1
  · rwa [h.substitute_of_not_blocked hb]

/-- Different names stay different. -/
theorem injOn : Set.InjOn (substitute swaps) names := by
  intro a ha b hb hsame
  by_cases hab : a ∈ blocked <;> by_cases hbb : b ∈ blocked
  · exact congrArg Prod.fst (List.inj_on_of_nodup_map h.chosen.nodup (h.mem_of_blocked ha hab)
      (h.mem_of_blocked hb hbb) hsame)
  · rw [h.substitute_of_not_blocked hbb] at hsame
    exact absurd (hsame ▸ hb) (h.new_not_mem (h.mem_of_blocked ha hab)).2
  · rw [h.substitute_of_not_blocked hab] at hsame
    exact absurd (hsame ▸ ha) (h.new_not_mem (h.mem_of_blocked hb hbb)).2
  · rwa [h.substitute_of_not_blocked hab, h.substitute_of_not_blocked hbb] at hsame

/-- The names become the new ones and those that are kept. -/
theorem exists_substitute_iff : (∃ old ∈ names, substitute swaps old = name) ↔
    name ∈ swaps.map (·.2) ∨ name ∈ names ∧ name ∉ blocked := by
  constructor
  · rintro ⟨old, ho, rfl⟩
    by_cases hb : old ∈ blocked
    · exact .inl (List.mem_map_of_mem (h.mem_of_blocked ho hb))
    · rw [h.substitute_of_not_blocked hb]
      exact .inr ⟨ho, hb⟩
  · rintro (hn | ⟨hn, hb⟩)
    · obtain ⟨swap, hs, rfl⟩ := List.mem_map.1 hn
      exact ⟨swap.1, ((h.olds _).1 (List.mem_map_of_mem hs)).1, substitute_of_mem h.nodup hs⟩
    · exact ⟨name, hn, h.substitute_of_not_blocked hb⟩

/-- A part of the names undergoes the swaps of that part. -/
theorem replaced {part : AliasSet} (hsub : ∀ name ∈ part, name ∈ names) :
    Replaced part (swaps.filter fun swap => swap.1 ∈ part)
      ((swaps.filter fun swap => swap.1 ∈ part).foldl
        (fun names swap => names.replace swap.1 swap.2) part) := by
  refine Replaced.foldl_replace (h.nodup.sublist (List.filter_sublist.map _))
    (h.chosen.nodup.sublist (List.filter_sublist.map _)) (fun swap hs => ?_) fun swap hs hp => ?_
  · simpa using (List.mem_filter.1 hs).2
  · exact (h.new_not_mem (List.mem_of_mem_filter hs)).2 (hsub _ hp)

end SwapsFor

end GraphNaming
