import Mathlib.Data.List.Nodup
import Mathlib.Data.List.Perm.Subperm
import Mathlib.Data.List.Sort

/-!
# Positions in a list

* `Before`: one item stands before another in a list. Among different items this is an order.
* `Before.induct`: what carries over from all items before one to the item itself holds of all.
* `filter_eq_singleton`, `flatMap_eq_of_unique`: among different items each is found once.
* `sublist_of_before`: items that stand in the order of a list are part of it.
* `eq_filter_of_sublist`: some of the items, in order, are those that pass a test.
* `infix_flatMap`: what an item gives stands in one piece among what all of them give.
-/

namespace GraphNaming

variable {α : Type}

/-- Some `a` of the list stands before some `b`. -/
def Before (items : List α) (a b : α) : Prop := [a, b].Sublist items

instance [DecidableEq α] (items : List α) (a b : α) : Decidable (Before items a b) :=
  inferInstanceAs (Decidable ([a, b].Sublist items))

namespace Before

variable {items more : List α} {a b c : α}

theorem mono (h : Before items a b) (hs : items.Sublist more) : Before more a b :=
  List.Sublist.trans h hs

theorem left_mem (h : Before items a b) : a ∈ items := List.Sublist.subset h (by simp)

theorem right_mem (h : Before items a b) : b ∈ items := List.Sublist.subset h (by simp)

theorem append (ha : a ∈ items) (hb : b ∈ more) : Before (items ++ more) a b :=
  List.Sublist.append (List.singleton_sublist.2 ha) (List.singleton_sublist.2 hb)

theorem cons_iff {first : α} :
    Before (first :: items) a b ↔ a = first ∧ b ∈ items ∨ Before items a b := by
  unfold Before
  rw [List.sublist_cons_iff]
  constructor
  · rintro (h | ⟨rest, hr, h⟩)
    · exact .inr h
    · cases hr
      exact .inl ⟨rfl, List.singleton_sublist.1 h⟩
  · rintro (⟨rfl, h⟩ | h)
    · exact .inr ⟨_, rfl, List.singleton_sublist.2 h⟩
    · exact .inl h

theorem trans (hn : items.Nodup) (hab : Before items a b) (hbc : Before items b c) :
    Before items a c := by
  induction items with
  | nil => cases hab
  | cons first items ih =>
    obtain ⟨hf, hn⟩ := List.nodup_cons.1 hn
    rw [cons_iff] at hab hbc ⊢
    rcases hab with ⟨rfl, hb⟩ | hab <;> rcases hbc with ⟨rfl, hc⟩ | hbc
    · exact absurd hb hf
    · exact .inl ⟨rfl, hbc.right_mem⟩
    · exact absurd hab.right_mem hf
    · exact .inr (ih hn hab hbc)

theorem irrefl (hn : items.Nodup) : ¬ Before items a a := by
  induction items with
  | nil => nofun
  | cons first items ih =>
    obtain ⟨hf, hn⟩ := List.nodup_cons.1 hn
    rw [cons_iff]
    rintro (⟨rfl, h⟩ | h)
    · exact hf h
    · exact ih hn h

theorem asymm (hn : items.Nodup) (h : Before items a b) : ¬ Before items b a :=
  fun h' => irrefl hn (h.trans hn h')

/-- Of two different items one stands before the other. -/
theorem total (ha : a ∈ items) (hb : b ∈ items) (hne : a ≠ b) :
    Before items a b ∨ Before items b a := by
  induction items with
  | nil => cases ha
  | cons first items ih =>
    rw [cons_iff, cons_iff]
    rcases List.mem_cons.1 ha with rfl | ha' <;> rcases List.mem_cons.1 hb with rfl | hb'
    · exact absurd rfl hne
    · exact .inl (.inl ⟨rfl, hb'⟩)
    · exact .inr (.inl ⟨rfl, ha'⟩)
    · exact (ih ha' hb').imp .inr .inr

/-- Part of a list has its items in the same order. -/
theorem sublist_iff (hn : more.Nodup) (hs : items.Sublist more) (ha : a ∈ items) (hb : b ∈ items) :
    Before items a b ↔ Before more a b := by
  refine ⟨fun h => h.mono hs, fun h => ?_⟩
  have hne : a ≠ b := by
    rintro rfl
    exact irrefl hn h
  exact (total ha hb hne).resolve_right fun h' => h.asymm hn (h'.mono hs)

/-- Nothing stands before the first of different items. -/
theorem not_first {first : α} (hn : (first :: items).Nodup) :
    ¬ Before (first :: items) a first := by
  rw [cons_iff]
  rintro (⟨-, h⟩ | h)
  · exact (List.nodup_cons.1 hn).1 h
  · exact (List.nodup_cons.1 hn).1 h.right_mem

/-- What holds of an item as soon as it holds of all items before it holds of every item. -/
theorem induct {P : α → Prop} (hn : items.Nodup)
    (h : ∀ item ∈ items, (∀ earlier, Before items earlier item → P earlier) → P item) :
    ∀ item ∈ items, P item := by
  induction items with
  | nil => nofun
  | cons first items ih =>
    have hfirst : P first := h first List.mem_cons_self fun earlier hb => absurd hb (not_first hn)
    refine List.forall_mem_cons.2 ⟨hfirst, ih (List.nodup_cons.1 hn).2 fun item hi hp => ?_⟩
    refine h item (List.mem_cons_of_mem _ hi) fun earlier hb => ?_
    rcases cons_iff.1 hb with ⟨rfl, -⟩ | hb
    · exact hfirst
    · exact hp earlier hb

theorem append_iff : Before (items ++ more) a b ↔
    Before items a b ∨ (a ∈ items ∧ b ∈ more) ∨ Before more a b := by
  induction items with
  | nil =>
    have hnone : ¬ Before [] a b := nofun
    simp [hnone]
  | cons first items ih =>
    rw [List.cons_append, cons_iff, cons_iff, ih, List.mem_append, List.mem_cons]
    grind

/-- What stands before an item is in front of it. -/
theorem mem_front (h : Before (items ++ b :: more) a b) (hn : (items ++ b :: more).Nodup) :
    a ∈ items := by
  have hb : b ∉ more := (List.nodup_cons.1 (List.nodup_append.1 hn).2.1).1
  rcases append_iff.1 h with hfront | ⟨ha, -⟩ | hrest
  · exact hfront.left_mem
  · exact ha
  · rcases cons_iff.1 hrest with ⟨-, hmem⟩ | hmore
    · exact absurd hmem hb
    · exact absurd hmore.right_mem hb

theorem filter_iff {p : α → Bool} :
    Before (items.filter p) a b ↔ p a = true ∧ p b = true ∧ Before items a b := by
  constructor
  · intro h
    exact ⟨(List.mem_filter.1 h.left_mem).2, (List.mem_filter.1 h.right_mem).2,
      h.mono List.filter_sublist⟩
  · rintro ⟨ha, hb, h⟩
    simpa [Before, ha, hb] using List.Sublist.filter p h

/-- The order of the items once some of them are moved to the front. -/
theorem filter_append_iff {p : α → Bool} (ha : a ∈ items) (hb : b ∈ items) :
    Before (items.filter p ++ items.filter fun item => !p item) a b ↔
      (p a = true ∧ p b = false) ∨ (p a = p b ∧ Before items a b) := by
  rw [append_iff, filter_iff, filter_iff, List.mem_filter, List.mem_filter]
  cases p a <;> cases p b <;> simp [ha, hb]

theorem map {β : Type} (f : α → β) (h : Before items a b) : Before (items.map f) (f a) (f b) :=
  List.Sublist.map f h

theorem of_map {β : Type} {f : α → β} {x y : β} (h : Before (items.map f) x y) :
    ∃ a b, Before items a b ∧ f a = x ∧ f b = y := by
  obtain ⟨pair, hpair, hxy⟩ := List.sublist_map_iff.1 h
  obtain ⟨a, rest, rfl, rfl, hrest⟩ := List.map_eq_cons_iff.1 hxy.symm
  obtain ⟨b, more, rfl, rfl, hmore⟩ := List.map_eq_cons_iff.1 hrest
  obtain rfl := List.map_eq_nil_iff.1 hmore
  exact ⟨a, b, hpair, rfl, rfl⟩

theorem map_iff {β : Type} {f : α → β} (hn : (items.map f).Nodup) (ha : a ∈ items)
    (hb : b ∈ items) : Before (items.map f) (f a) (f b) ↔ Before items a b := by
  refine ⟨fun h => ?_, map f⟩
  obtain ⟨a', b', hb', hfa, hfb⟩ := of_map h
  obtain rfl := List.inj_on_of_nodup_map hn hb'.left_mem ha hfa
  obtain rfl := List.inj_on_of_nodup_map hn hb'.right_mem hb hfb
  exact hb'

/-- What stands in one of several lists put together stands where that list does. -/
theorem of_flatMap {β : Type} {f : α → List β} {x y : β} (h : Before (items.flatMap f) x y) :
    ∃ a ∈ items, ∃ b ∈ items, x ∈ f a ∧ y ∈ f b ∧ (a = b ∨ Before items a b) := by
  induction items with
  | nil => cases h
  | cons first items ih =>
    obtain ⟨left, right, hsplit, hl, hr⟩ := List.sublist_append_iff.1 h
    rcases left with - | ⟨x', - | ⟨y', left⟩⟩
    · rw [List.nil_append] at hsplit
      rw [← hsplit] at hr
      obtain ⟨a, ha, b, hb, hx, hy, hab⟩ := ih hr
      exact ⟨a, .tail _ ha, b, .tail _ hb, hx, hy, hab.imp_right fun h => cons_iff.2 (.inr h)⟩
    · obtain ⟨rfl, rfl⟩ := List.cons.inj hsplit
      obtain ⟨b, hb, hy⟩ := List.mem_flatMap.1 (List.singleton_sublist.1 hr)
      exact ⟨first, .head _, b, .tail _ hb, List.singleton_sublist.1 hl, hy,
        .inr (cons_iff.2 (.inl ⟨rfl, hb⟩))⟩
    · obtain ⟨rfl, hrest⟩ := List.cons.inj hsplit
      obtain ⟨rfl, -⟩ := List.cons.inj hrest
      exact ⟨first, .head _, first, .head _, hl.subset (by simp), hl.subset (by simp), .inl rfl⟩

end Before

/-- Some of the items, each of which stands before the same ones as in the list, are part of it. -/
theorem sublist_of_before {items part : List α} (hn : items.Nodup) (hp : part.Nodup)
    (hmem : part ⊆ items) (h : ∀ a b, Before part a b → Before items a b) :
    part.Sublist items := by
  have : Std.Antisymm (Before items) := ⟨fun _ _ hab hba => absurd hba (hab.asymm hn)⟩
  exact List.sublist_of_subperm_of_pairwise (hp.subperm hmem)
    (List.pairwise_iff_forall_sublist.2 (h _ _)) (List.pairwise_iff_forall_sublist.2 id)

/-- Some of the items, in order, are those that pass the test that they alone pass. -/
theorem eq_filter_of_sublist {items part : List α} {p : α → Bool} (hn : items.Nodup)
    (hs : part.Sublist items) (h : ∀ item ∈ items, item ∈ part ↔ p item = true) :
    part = items.filter p := by
  have hpart : part = part.filter p :=
    (List.filter_eq_self.2 fun item hi => (h item (hs.subset hi)).1 hi).symm
  have hsub : part.Sublist (items.filter p) := hpart ▸ hs.filter p
  have hback : items.filter p ⊆ part := fun item hi =>
    (h item (List.mem_of_mem_filter hi)).2 (List.mem_filter.1 hi).2
  exact hsub.eq_of_length_le ((hn.filter p).subperm hback).length_le

/-- What an item gives stands in one piece among what all of them give. -/
theorem infix_flatMap {β : Type} (f : α → List β) {items : List α} {item : α} (h : item ∈ items) :
    f item <:+: items.flatMap f := List.infix_of_mem_flatten (List.mem_map_of_mem h)

/-! ## Items found once -/

section Once

variable {items : List α} {item : α} (hn : items.Nodup) (hi : item ∈ items)
include hn hi

theorem filter_eq_singleton [DecidableEq α] : items.filter (· = item) = [item] := by
  rw [List.filter_eq, List.count_eq_one_of_mem hn hi]
  rfl

/-- If all items but one give nothing, the list is what that one gives. -/
theorem flatMap_eq_of_unique {β : Type} {f : α → List β}
    (h : ∀ other ∈ items, other ≠ item → f other = []) : items.flatMap f = f item := by
  induction items with
  | nil => cases hi
  | cons first items ih =>
    obtain ⟨hfirst, hn⟩ := List.nodup_cons.1 hn
    obtain ⟨hf, hrest⟩ := List.forall_mem_cons.1 h
    rw [List.flatMap_cons]
    by_cases he : first = item
    · subst he
      have hnone : items.flatMap f = [] := List.flatMap_eq_nil_iff.2 fun other ho =>
        hrest other ho fun heq => hfirst (heq ▸ ho)
      rw [hnone, List.append_nil]
    · rw [hf he, ih hn ((List.mem_cons.1 hi).resolve_left (Ne.symm he)) hrest, List.nil_append]

end Once

end GraphNaming
