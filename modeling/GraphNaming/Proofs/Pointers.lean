import GraphNaming.Proofs.Partition
import Mathlib.Logic.Function.Basic

/-!
# Classes told by pointers

The classes of a partition can be told by pointers alone: every key points to another one of its
class or to itself, and all pointers of a class lead to the same key. To join two classes, the key
to which those of the one lead comes to point to that of the other.

* `Leads`: following pointers comes to an end.
* `Unites`: joins of pairs, one after the other, that follow pointers only.
* `exists_unites`: such joins never get stuck, and all pointers lead to the representatives.
-/

namespace GraphNaming

variable {α : Type}

/-- Following pointers from `key` ends at `last`, which points to itself. -/
inductive Leads (up : α → α) : α → α → Prop
  | stop {key : α} : up key = key → Leads up key key
  | step {key last : α} : up key ≠ key → Leads up (up key) last → Leads up key last

namespace Leads

variable {up : α → α} {key last root root' : α}

theorem last_eq (h : Leads up key last) : up last = last := by
  induction h with
  | stop h => exact h
  | step _ _ ih => exact ih

/-- There is nothing to follow from a key that points to itself. -/
theorem eq_of_stop (h : Leads up key last) (hkey : up key = key) : last = key := by
  cases h with
  | stop _ => rfl
  | step hne _ => exact absurd hkey hne

theorem unique {last' : α} (h : Leads up key last) (h' : Leads up key last') : last = last' := by
  induction h with
  | stop hkey => exact (h'.eq_of_stop hkey).symm
  | step hne _ ih =>
    cases h' with
    | stop hkey => exact absurd hkey hne
    | step _ h' => exact ih h'

/-- Once one end points to another, all that led to the one leads to the other. -/
theorem update [DecidableEq α] (h : Leads up key last) (hroot : up root = root)
    (hroot' : up root' = root') (hne : root ≠ root') :
    Leads (Function.update up root' root) key (if last = root' then root else last) := by
  induction h with
  | @stop key hkey =>
    have hend : Leads (Function.update up root' root) root root :=
      .stop (by rw [Function.update_of_ne hne, hroot])
    by_cases hk : key = root'
    · rw [if_pos hk, hk]
      exact .step (by rwa [Function.update_self]) (by rwa [Function.update_self])
    · rw [if_neg hk]
      exact .stop (by rw [Function.update_of_ne hk, hkey])
  | @step key last hkey _ ih =>
    have hk : key ≠ root' := by
      rintro rfl
      exact hkey hroot'
    exact .step (by rwa [Function.update_of_ne hk]) (by rwa [Function.update_of_ne hk])

end Leads

/-- The pointers `up` become `after` once the pairs are joined one after the other: pointers are
followed from both keys, and where they end at two keys, the second comes to point to the first. -/
inductive Unites [DecidableEq α] : (α → α) → List (α × α) → (α → α) → Prop
  | nil {up : α → α} : Unites up [] up
  | linked {up after : α → α} {a b root : α} {rest : List (α × α)} : Leads up a root →
    Leads up b root → Unites up rest after → Unites up ((a, b) :: rest) after
  | join {up after : α → α} {a b root root' : α} {rest : List (α × α)} : Leads up a root →
    Leads up b root' → root ≠ root' → Unites (Function.update up root' root) rest after →
    Unites up ((a, b) :: rest) after

namespace Partition

variable [DecidableEq α] {partition : Partition α}

theorem representative_empty (key : α) : (empty : Partition α).representative key = key := by
  simp [representative, classOf, empty]

/-- A class that another one is added to keeps its representative, which the other one takes
over. -/
theorem representative_join (hp : partition.Valid) {a b : α} (hab : partition.related a b = false)
    (key : α) : (partition.join a b).representative key =
      if partition.representative key = partition.representative b then
        partition.representative a
      else partition.representative key := by
  have hne := partition.mem_classOf_self a
  have hhead (rest : List α) (x : α) :
      (partition.classOf a ++ rest).headD x = partition.representative a := by
    rw [representative]
    cases hc : partition.classOf a with
    | nil => simp [hc] at hne
    | cons first more => rfl
  have hmem : key ∈ partition.classOf a ++ partition.classOf b ↔
      partition.representative a = partition.representative key ∨
        partition.representative b = partition.representative key := by
    simp only [List.mem_append, hp.mem_classOf, related_eq_true]
  rw [representative, classOf_join hp hab]
  by_cases hb : partition.representative key = partition.representative b
  · rw [if_pos (hmem.2 (.inr hb.symm)), if_pos hb, hhead]
  · rw [if_neg hb]
    by_cases ha : partition.representative a = partition.representative key
    · rw [if_pos (hmem.2 (.inl ha)), hhead, ha]
    · rw [if_neg (mt hmem.1 (not_or.2 ⟨ha, Ne.symm hb⟩))]
      rfl

theorem representative_join_of_related (hp : partition.Valid) {a b key : α}
    (hab : partition.related a b = false)
    (hkey : partition.related a key = true ∨ partition.related b key = true) :
    (partition.join a b).representative key = partition.representative a := by
  rw [representative_join hp hab]
  by_cases hb : partition.representative key = partition.representative b
  · rw [if_pos hb]
  · rw [if_neg hb]
    have ha := hkey.resolve_right fun h => hb (related_eq_true.1 h).symm
    exact (related_eq_true.1 ha).symm

/-- The end of the pointers is the representative, whatever pairs are joined. -/
theorem exists_unites (hp : partition.Valid) {up : α → α}
    (h : ∀ key, Leads up key (partition.representative key)) (pairs : List (α × α)) :
    ∃ after, Unites up pairs after ∧
      ∀ key, Leads after key ((partition.joinAll pairs).representative key) := by
  induction pairs generalizing partition up with
  | nil => exact ⟨up, .nil, h⟩
  | cons pair pairs ih =>
    obtain ⟨a, b⟩ := pair
    by_cases hab : partition.related a b = true
    · obtain ⟨after, hunites, hleads⟩ := ih hp h
      have hall : partition.joinAll ((a, b) :: pairs) = partition.joinAll pairs :=
        congrArg (joinAll · pairs) (join_of_related hab)
      exact ⟨after, .linked (h a) (related_eq_true.1 hab ▸ h b) hunites, hall ▸ hleads⟩
    · have hne : partition.representative a ≠ partition.representative b :=
        fun he => hab (related_eq_true.2 he)
      rw [Bool.not_eq_true] at hab
      obtain ⟨after, hunites, hleads⟩ := ih (hp.join a b) fun key => by
        rw [representative_join hp hab]
        exact (h key).update (h a).last_eq (h b).last_eq hne
      exact ⟨after, .join (h a) (h b) hne hunites, hleads⟩

/-- Starting with every key by itself. -/
theorem exists_unites_empty (pairs : List (α × α)) :
    ∃ after, Unites id pairs after ∧
      ∀ key, Leads after key (((empty : Partition α).joinAll pairs).representative key) :=
  exists_unites valid_empty (fun key => by
    rw [representative_empty]
    exact .stop rfl) pairs

end Partition

end GraphNaming
