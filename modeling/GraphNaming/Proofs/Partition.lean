import GraphNaming.Linking.Partition
import GraphNaming.Proofs.Positions
import Mathlib.Data.List.Find
import Mathlib.Data.List.Flatten
import Mathlib.Data.List.Nodup
import Mathlib.Data.List.Pairwise
import Mathlib.Logic.Relation

/-!
# Partitions

Joining pairs of keys yields the classes of the equivalence that the pairs generate.

* `Partition.Valid`: the classes are disjoint, and none is empty.
* `classOf_join`: joining puts one class after the other.
* `related_joinAll`: two keys are in one class if a chain of joined pairs leads from one to the
  other.
* `exists_leader`: every item is, or comes after, the one leader of its class.
* `Valid.flatMap_leaders_perm`: the classes of the leaders share out all keys.
* `mem_leaders_iff`: the leaders are the items that come first in their classes.
-/

namespace GraphNaming.Partition

variable {α β : Type} [DecidableEq α] {partition : Partition α} {a b x y : α}

structure Valid (partition : Partition α) : Prop where
  nonempty : ∀ keys ∈ partition.classes, keys ≠ []
  nodup : partition.classes.flatten.Nodup

omit [DecidableEq α] in
theorem valid_empty : (empty : Partition α).Valid := ⟨nofun, List.nodup_nil⟩

/-! ## Classes -/

theorem classOf_cases (partition : Partition α) (x : α) :
    (partition.classOf x ∈ partition.classes ∧ x ∈ partition.classOf x) ∨
      (partition.classOf x = [x] ∧ ∀ keys ∈ partition.classes, x ∉ keys) := by
  unfold classOf
  cases hfind : partition.classes.find? (x ∈ ·) with
  | none => exact .inr ⟨rfl, by simpa using hfind⟩
  | some keys => exact .inl ⟨List.mem_of_find?_eq_some hfind, by simpa using List.find?_some hfind⟩

theorem mem_classOf_self (partition : Partition α) (x : α) : x ∈ partition.classOf x := by
  rcases partition.classOf_cases x with ⟨-, h⟩ | ⟨h, -⟩
  · exact h
  · rw [h]
    exact List.mem_singleton.2 rfl

theorem representative_mem (partition : Partition α) (x : α) :
    partition.representative x ∈ partition.classOf x := by
  have hmem := partition.mem_classOf_self x
  rw [representative]
  cases hc : partition.classOf x with
  | nil => simp [hc] at hmem
  | cons first rest => exact List.mem_cons_self

theorem head?_classOf (partition : Partition α) (x : α) :
    (partition.classOf x).head? = some (partition.representative x) := by
  have hmem := partition.mem_classOf_self x
  rw [representative]
  cases hc : partition.classOf x with
  | nil => simp [hc] at hmem
  | cons first rest => rfl

theorem take_one_classOf (partition : Partition α) (x : α) :
    (partition.classOf x).take 1 = [partition.representative x] := by
  rw [List.take_one, partition.head?_classOf]
  rfl

theorem related_eq_true : partition.related x y = true ↔
    partition.representative x = partition.representative y := by
  rw [related, beq_iff_eq]

@[simp] theorem related_refl (partition : Partition α) (x : α) : partition.related x x = true :=
  related_eq_true.2 rfl

theorem related_symm (h : partition.related x y = true) : partition.related y x = true :=
  related_eq_true.2 (related_eq_true.1 h).symm

theorem related_trans {z : α} (h : partition.related x y = true)
    (h' : partition.related y z = true) : partition.related x z = true :=
  related_eq_true.2 ((related_eq_true.1 h).trans (related_eq_true.1 h'))

namespace Valid

variable (hp : partition.Valid)
include hp

omit [DecidableEq α] in
/-- A key is in one class only. -/
theorem class_unique {keys keys' : List α} (hk : keys ∈ partition.classes)
    (hk' : keys' ∈ partition.classes) (hx : x ∈ keys) (hx' : x ∈ keys') : keys = keys' := by
  refine Classical.byContradiction fun hne => ?_
  have hdisjoint := (List.nodup_flatten.1 hp.nodup).2
  have : Std.Symm (@List.Disjoint α) := ⟨fun _ _ h _ hx hy => h hy hx⟩
  exact hdisjoint.forall hk hk' hne hx hx'

theorem classOf_eq {keys : List α} (hk : keys ∈ partition.classes) (hx : x ∈ keys) :
    partition.classOf x = keys := by
  rcases partition.classOf_cases x with ⟨hmem, hx'⟩ | ⟨-, hnot⟩
  · exact hp.class_unique hmem hk hx' hx
  · exact absurd hx (hnot keys hk)

/-- The members of a class have that class. -/
theorem classOf_of_mem (h : y ∈ partition.classOf x) :
    partition.classOf y = partition.classOf x := by
  rcases partition.classOf_cases x with ⟨hmem, -⟩ | ⟨hc, -⟩
  · exact hp.classOf_eq hmem h
  · rw [hc, List.mem_singleton] at h
    rw [h]

theorem classOf_representative (x : α) :
    partition.classOf (partition.representative x) = partition.classOf x :=
  hp.classOf_of_mem (partition.representative_mem x)

theorem mem_classOf_iff : y ∈ partition.classOf x ↔ partition.classOf y = partition.classOf x :=
  ⟨hp.classOf_of_mem, fun h => h ▸ partition.mem_classOf_self y⟩

theorem related_iff : partition.related x y = true ↔ partition.classOf x = partition.classOf y := by
  rw [related_eq_true]
  constructor
  · intro h
    rw [← hp.classOf_representative x, h, hp.classOf_representative y]
  · intro h
    have hmem := partition.mem_classOf_self x
    rw [representative, representative, ← h]
    cases hc : partition.classOf x with
    | nil => simp [hc] at hmem
    | cons first rest => rfl

theorem mem_classOf : y ∈ partition.classOf x ↔ partition.related x y = true := by
  rw [hp.mem_classOf_iff, hp.related_iff, eq_comm]

theorem nodup_classOf (x : α) : (partition.classOf x).Nodup := by
  rcases partition.classOf_cases x with ⟨hmem, -⟩ | ⟨hc, -⟩
  · exact (List.nodup_flatten.1 hp.nodup).1 _ hmem
  · rw [hc]
    exact List.nodup_singleton x

end Valid

/-! ## Joining -/

/-- Keys of one class are joined already. -/
theorem join_of_related (hab : partition.related a b = true) : partition.join a b = partition :=
  if_pos hab

section Join

variable (hp : partition.Valid)
include hp

/-- The class of `x` once `a` and `b`, which were in two classes, are joined. -/
theorem classOf_join (hab : partition.related a b = false) (x : α) :
    (partition.join a b).classOf x =
      if x ∈ partition.classOf a ++ partition.classOf b then
        partition.classOf a ++ partition.classOf b
      else partition.classOf x := by
  rw [join, if_neg (by simp [hab]), classOf, List.find?_cons]
  by_cases hx : x ∈ partition.classOf a ++ partition.classOf b
  · simp [hx]
  -- The class of `x` is one of those kept: a class that holds `a` or `b` would be one of the
  -- joined.
  · have hkeep : ∀ keys ∈ partition.classes, x ∈ keys → a ∉ keys ∧ b ∉ keys := by
      intro keys hk hxk
      rw [List.mem_append, not_or] at hx
      refine ⟨fun h => hx.1 ?_, fun h => hx.2 ?_⟩ <;> rwa [hp.classOf_eq hk h]
    have hfind : (partition.classes.filter fun keys => a ∉ keys ∧ b ∉ keys).find? (x ∈ ·) =
        partition.classes.find? (x ∈ ·) := by
      rw [List.find?_filter]
      refine List.find?_congr fun keys hk => ?_
      by_cases hxk : x ∈ keys
      · simp [hxk, hkeep keys hk hxk]
      · simp [hxk]
    simp only [hx, decide_false, hfind, if_false]
    rfl

theorem Valid.join (a b : α) : (partition.join a b).Valid := by
  unfold Partition.join
  split
  · exact hp
  · next hab =>
    rw [Bool.not_eq_true] at hab
    have hdisjoint : (partition.classOf a).Disjoint (partition.classOf b) := by
      intro x ha hb
      have hclass := (hp.classOf_of_mem ha).symm.trans (hp.classOf_of_mem hb)
      rw [hp.related_iff.2 hclass] at hab
      cases hab
    constructor
    · intro keys hk
      rcases List.mem_cons.1 hk with rfl | hk
      · exact List.ne_nil_of_mem (List.mem_append_left _ (partition.mem_classOf_self a))
      · exact hp.nonempty keys (List.mem_of_mem_filter hk)
    · rw [List.flatten_cons, List.nodup_append']
      -- The joined class has no key twice, nor have those kept, and no kept class has a key of the
      -- joined one: it would be the class of `a` or of `b`.
      refine ⟨List.nodup_append'.2 ⟨hp.nodup_classOf a, hp.nodup_classOf b, hdisjoint⟩,
        hp.nodup.sublist (List.filter_sublist.flatten), fun x hx hrest => ?_⟩
      obtain ⟨keys, hk, hxk⟩ := List.mem_flatten.1 hrest
      obtain ⟨hk, hnot⟩ := List.mem_filter.1 hk
      rw [decide_eq_true_eq] at hnot
      rcases List.mem_append.1 hx with hx | hx
      · rw [← hp.classOf_eq hk hxk, hp.classOf_of_mem hx] at hnot
        exact hnot.1 (partition.mem_classOf_self a)
      · rw [← hp.classOf_eq hk hxk, hp.classOf_of_mem hx] at hnot
        exact hnot.2 (partition.mem_classOf_self b)

/-- The joined class, told by its keys. -/
theorem classOf_join_of_related (hab : partition.related a b = false)
    (hx : partition.related a x = true ∨ partition.related b x = true) :
    (partition.join a b).classOf x = partition.classOf a ++ partition.classOf b := by
  rw [classOf_join hp hab, if_pos]
  exact List.mem_append.2 (hx.imp hp.mem_classOf.2 hp.mem_classOf.2)

theorem classOf_join_of_apart (hab : partition.related a b = false)
    (ha : partition.related a x = false) (hb : partition.related b x = false) :
    (partition.join a b).classOf x = partition.classOf x := by
  rw [classOf_join hp hab, if_neg]
  rw [List.mem_append, hp.mem_classOf, hp.mem_classOf, ha, hb]
  simp

/-- Joining brings together what was in either class. -/
theorem related_join : (partition.join a b).related x y = true ↔
    partition.related x y = true ∨
      (partition.related a x = true ∨ partition.related b x = true) ∧
        (partition.related a y = true ∨ partition.related b y = true) := by
  by_cases hab : partition.related a b = true
  · rw [join_of_related hab]
    refine ⟨.inl, fun h => h.elim id ?_⟩
    have from_a {z : α} (h : partition.related a z = true ∨ partition.related b z = true) :
        partition.related a z = true := h.elim id (related_trans hab)
    exact fun ⟨hx, hy⟩ => related_trans (related_symm (from_a hx)) (from_a hy)
  · rw [Bool.not_eq_true] at hab
    have hjoined {z : α} : z ∈ partition.classOf a ++ partition.classOf b ↔
        partition.related a z = true ∨ partition.related b z = true := by
      rw [List.mem_append, hp.mem_classOf, hp.mem_classOf]
    have hsplit {z w : α} (hz : z ∈ partition.classOf a ++ partition.classOf b)
        (hw : w ∉ partition.classOf a ++ partition.classOf b) : partition.related z w = false := by
      rw [← Bool.not_eq_true]
      intro h
      rw [hjoined] at hz hw
      exact hw (hz.imp (related_trans · h) (related_trans · h))
    rw [(hp.join a b).related_iff, classOf_join hp hab, classOf_join hp hab, ← hjoined, ← hjoined]
    -- Four cases by whether each key is in the joined class. One inside and one outside are related
    -- neither before nor after.
    by_cases hx : x ∈ partition.classOf a ++ partition.classOf b <;>
      by_cases hy : y ∈ partition.classOf a ++ partition.classOf b
    · simp only [if_pos, hx, hy, and_self, or_true]
    · rw [if_pos hx, if_neg hy, hsplit hx hy]
      simp only [hy, and_false, or_false, Bool.false_eq_true, iff_false]
      intro h
      exact hy (h ▸ partition.mem_classOf_self y)
    · have hxy : partition.related x y = false := by
        rw [← Bool.not_eq_true]
        intro h
        have hyx := related_symm h
        rw [hsplit hy hx] at hyx
        cases hyx
      rw [if_neg hx, if_pos hy, hxy]
      simp only [hx, false_and, or_false, Bool.false_eq_true, iff_false]
      intro h
      exact hx (h ▸ partition.mem_classOf_self x)
    · simp only [if_neg, hx, hy, not_false_eq_true, and_self, or_false, hp.related_iff]

theorem Valid.joinAll (pairs : List (α × α)) : (partition.joinAll pairs).Valid := by
  induction pairs generalizing partition with
  | nil => exact hp
  | cons pair pairs ih => exact ih (hp.join pair.1 pair.2)

/-- No pair brings anything to a key that is in none of them. -/
theorem classOf_joinAll_of_ne {pairs : List (α × α)} (hx : partition.classOf x = [x])
    (hne : ∀ pair ∈ pairs, pair.1 ≠ x ∧ pair.2 ≠ x) :
    (partition.joinAll pairs).classOf x = [x] := by
  induction pairs generalizing partition with
  | nil => exact hx
  | cons pair pairs ih =>
    obtain ⟨a, b⟩ := pair
    obtain ⟨⟨ha, hb⟩, hrest⟩ := List.forall_mem_cons.1 hne
    have apart {other : α} (ho : other ≠ x) : x ∉ partition.classOf other := fun hmem =>
      ho (List.mem_singleton.1 (hx ▸ hp.classOf_of_mem hmem ▸ partition.mem_classOf_self other))
    refine ih (hp.join a b) ?_ hrest
    show (partition.join a b).classOf x = [x]
    by_cases hab : partition.related a b = true
    · rwa [join_of_related hab]
    · rw [Bool.not_eq_true] at hab
      rw [classOf_join hp hab, if_neg, hx]
      exact fun hmem => (List.mem_append.1 hmem).elim (apart ha) (apart hb)

end Join

/-- A chain of joined pairs leads from each key of a class to each other. -/
theorem related_joinAll (hp : partition.Valid) {pairs : List (α × α)} :
    (partition.joinAll pairs).related x y = true ↔
      Relation.EqvGen (fun x y => partition.related x y = true ∨ (x, y) ∈ pairs) x y := by
  induction pairs generalizing partition x y with
  | nil =>
    have hequiv : Equivalence fun x y => partition.related x y = true ∨ (x, y) ∈ [] := by
      simpa using ⟨partition.related_refl, related_symm, related_trans⟩
    rw [hequiv.eqvGen_iff]
    simp [joinAll]
  | cons pair pairs ih =>
    obtain ⟨a, b⟩ := pair
    rw [joinAll, List.foldl_cons, ← joinAll, ih (hp.join a b)]
    constructor
    -- From the classes after the first pair, each step is one of the old classes, a way through
    -- that pair, or a later pair.
    · intro h
      induction h with
      | refl x => exact .refl x
      | symm x y _ ih => exact .symm x y ih
      | trans x y z _ _ ihx ihy => exact .trans x y z ihx ihy
      | rel x y h =>
        have from_a {z : α} (h : partition.related a z = true ∨ partition.related b z = true) :
            Relation.EqvGen (fun x y => partition.related x y = true ∨ (x, y) ∈ (a, b) :: pairs)
              a z := by
          rcases h with h | h
          · exact .rel a z (.inl h)
          · exact .trans a b z (.rel a b (.inr List.mem_cons_self)) (.rel b z (.inl h))
        rcases h with h | h
        · rcases (related_join hp).1 h with h | ⟨hx, hy⟩
          · exact .rel x y (.inl h)
          · exact .trans x a y (.symm a x (from_a hx)) (from_a hy)
        · exact .rel x y (.inr (List.mem_cons_of_mem _ h))
    · intro h
      refine h.mono fun x y h => ?_
      rcases h with h | h
      · exact .inl ((related_join hp).2 (.inl h))
      · rcases List.mem_cons.1 h with h | h
        · cases h
          exact .inl ((related_join hp).2 (.inr ⟨.inl (by simp), .inr (by simp)⟩))
        · exact .inr h

/-- The classes of the keys that were joined one pair after the other, all alone at first. -/
theorem related_joinAll_empty {pairs : List (α × α)} :
    ((empty : Partition α).joinAll pairs).related x y = true ↔
      Relation.EqvGen (fun x y => (x, y) ∈ pairs) x y := by
  rw [related_joinAll valid_empty]
  have halone {x y : α} : (empty : Partition α).related x y = true ↔ x = y := by
    rw [valid_empty.related_iff]
    simp [classOf, empty]
  constructor
  · intro h
    induction h with
    | refl x => exact .refl x
    | symm x y _ ih => exact .symm x y ih
    | trans x y z _ _ ihx ihy => exact .trans x y z ihx ihy
    | rel x y h =>
      rcases h with h | h
      · rw [halone.1 h]
        exact .refl y
      · exact .rel x y h
  · exact fun h => h.mono fun _ _ h => .inr h

/-! ## Leaders -/

variable {key : β → α}

theorem leadersAfter_sublist (seen : List α) (items : List β) :
    (partition.leadersAfter key seen items).Sublist items := by
  induction items generalizing seen with
  | nil => exact .slnil
  | cons item items ih =>
    rw [leadersAfter]
    split
    · exact (ih seen).cons item
    · exact (ih _).cons_cons item

theorem representative_not_seen {seen : List α} {items : List β} {item : β}
    (h : item ∈ partition.leadersAfter key seen items) :
    partition.representative (key item) ∉ seen := by
  induction items generalizing seen with
  | nil => cases h
  | cons first items ih =>
    rw [leadersAfter] at h
    split at h
    · exact ih h
    · next hfirst =>
      rcases List.mem_cons.1 h with rfl | h
      · exact hfirst
      · exact fun hs => ih h (List.mem_cons_of_mem _ hs)

theorem pairwise_leadersAfter (seen : List α) (items : List β) :
    (partition.leadersAfter key seen items).Pairwise fun x y =>
      partition.related (key x) (key y) = false := by
  induction items generalizing seen with
  | nil => exact .nil
  | cons item items ih =>
    rw [leadersAfter]
    split
    · exact ih seen
    · refine List.pairwise_cons.2 ⟨fun other ho => ?_, ih _⟩
      rw [← Bool.not_eq_true, related_eq_true]
      intro h
      exact representative_not_seen ho (h ▸ List.mem_cons_self)

theorem leader_or_seen (seen : List α) {items : List β} {item : β} (h : item ∈ items) :
    partition.representative (key item) ∈ seen ∨
      ∃ leader ∈ partition.leadersAfter key seen items,
        partition.related (key leader) (key item) = true ∧
          (leader = item ∨ Before items leader item) := by
  induction items generalizing seen with
  | nil => cases h
  | cons first items ih =>
    rw [leadersAfter]
    split
    · next hfirst =>
      rcases List.mem_cons.1 h with rfl | h
      · exact .inl hfirst
      · refine (ih seen h).imp_right ?_
        rintro ⟨leader, hl, hr, hb⟩
        exact ⟨leader, hl, hr, hb.imp_right fun hb => Before.cons_iff.2 (.inr hb)⟩
    -- The first item leads, and the rest is gone through with its class seen: what is found seen
    -- there is of that class or was seen before.
    · next hfirst =>
      rcases List.mem_cons.1 h with rfl | h
      · exact .inr ⟨item, List.mem_cons_self, by simp, .inl rfl⟩
      · rcases ih (partition.representative (key first) :: seen) h with hs | hl
        · rcases List.mem_cons.1 hs with hs | hs
          · exact .inr ⟨first, List.mem_cons_self, related_eq_true.2 hs.symm,
              .inr (Before.cons_iff.2 (.inl ⟨rfl, h⟩))⟩
          · exact .inl hs
        · obtain ⟨leader, hl, hr, hb⟩ := hl
          exact .inr ⟨leader, List.mem_cons_of_mem _ hl, hr,
            hb.imp_right fun hb => Before.cons_iff.2 (.inr hb)⟩

theorem leaders_sublist (items : List β) : (partition.leaders key items).Sublist items :=
  leadersAfter_sublist [] items

theorem pairwise_leaders (items : List β) : (partition.leaders key items).Pairwise fun x y =>
    partition.related (key x) (key y) = false := pairwise_leadersAfter [] items

/-- Every item is the leader of its class or comes after it. -/
theorem exists_leader {items : List β} {item : β} (h : item ∈ items) :
    ∃ leader ∈ partition.leaders key items, partition.related (key leader) (key item) = true ∧
      (leader = item ∨ Before items leader item) :=
  (leader_or_seen [] h).resolve_left List.not_mem_nil

/-- A class has one leader. -/
theorem leader_unique {items : List β} {x y : β} (hx : x ∈ partition.leaders key items)
    (hy : y ∈ partition.leaders key items) (h : partition.related (key x) (key y) = true) :
    x = y := by
  refine Classical.byContradiction fun hne => ?_
  have : Std.Symm fun x y => partition.related (key x) (key y) = false := ⟨fun x y h => by
    rw [← Bool.not_eq_true] at h ⊢
    exact fun h' => h (related_symm h')⟩
  have hnot := (partition.pairwise_leaders items).forall hx hy hne
  rw [h] at hnot
  cases hnot

/-- No item of its class comes before a leader. -/
theorem leader_first {items : List β} {leader item : β}
    (hl : leader ∈ partition.leaders key items) (hi : item ∈ items)
    (hr : partition.related (key leader) (key item) = true) :
    leader = item ∨ Before items leader item := by
  obtain ⟨other, ho, hr', hb⟩ : ∃ other ∈ partition.leaders key items,
      partition.related (key other) (key item) = true ∧ (other = item ∨ Before items other item) :=
    exists_leader hi
  exact leader_unique ho hl (related_trans hr' (related_symm hr)) ▸ hb

/-- If all that is in one class with an item is the key of some item, then each key stands once in
the classes of the leaders, and nothing else does. -/
theorem Valid.flatMap_leaders_perm (hp : partition.Valid) {items : List β}
    (hn : (items.map key).Nodup)
    (hclosed : ∀ item ∈ items, ∀ other, partition.related (key item) other = true →
      other ∈ items.map key) :
    ((partition.leaders key items).flatMap fun leader => partition.classOf (key leader)).Perm
      (items.map key) := by
  have hclasses : ((partition.leaders key items).flatMap fun leader =>
      partition.classOf (key leader)).Nodup := by
    refine List.nodup_flatMap.2 ⟨fun leader _ => hp.nodup_classOf (key leader), ?_⟩
    refine (partition.pairwise_leaders items).imp fun hne member hm hm' => ?_
    have hr := related_trans (hp.mem_classOf.1 hm) (related_symm (hp.mem_classOf.1 hm'))
    rw [hne] at hr
    cases hr
  refine (List.perm_ext_iff_of_nodup hclasses hn).2 fun member => ?_
  rw [List.mem_flatMap]
  constructor
  · rintro ⟨leader, hl, hm⟩
    exact hclosed leader ((leaders_sublist items).subset hl) member (hp.mem_classOf.1 hm)
  · intro hm
    obtain ⟨item, hi, rfl⟩ := List.mem_map.1 hm
    obtain ⟨leader, hl, hr, -⟩ : ∃ leader ∈ partition.leaders key items,
        partition.related (key leader) (key item) = true ∧
          (leader = item ∨ Before items leader item) := exists_leader hi
    exact ⟨leader, hl, hp.mem_classOf.2 hr⟩

/-- The item is the first of its class. -/
def IsFirst (partition : Partition α) (key : β → α) (items : List β) (item : β) : Prop :=
  item ∈ items ∧ ∀ earlier, Before items earlier item →
    partition.related (key earlier) (key item) = false

instance [DecidableEq β] (partition : Partition α) (key : β → α) (items : List β) (item : β) :
    Decidable (partition.IsFirst key items item) :=
  decidable_of_iff (item ∈ items ∧ ∀ earlier ∈ items, Before items earlier item →
      partition.related (key earlier) (key item) = false)
    (and_congr_right fun _ => ⟨fun h earlier hb => h earlier hb.left_mem hb,
      fun h earlier _ hb => h earlier hb⟩)

/-- The leaders are the first items of their classes. -/
theorem mem_leaders_iff {items : List β} {item : β} (hn : items.Nodup) :
    item ∈ partition.leaders key items ↔ partition.IsFirst key items item := by
  constructor
  · intro hl
    refine ⟨(leaders_sublist items).subset hl, fun earlier hb => ?_⟩
    rw [← Bool.not_eq_true]
    intro hr
    rcases leader_first hl hb.left_mem (related_symm hr) with rfl | hb'
    · exact Before.irrefl hn hb
    · exact hb.asymm hn hb'
  · rintro ⟨hi, hfirst⟩
    obtain ⟨leader, hl, hr, rfl | hb⟩ : ∃ leader ∈ partition.leaders key items,
        partition.related (key leader) (key item) = true ∧
          (leader = item ∨ Before items leader item) := exists_leader hi
    · exact hl
    · rw [hfirst leader hb] at hr
      cases hr

theorem leaders_eq_filter [DecidableEq β] {items : List β} (hn : items.Nodup) :
    partition.leaders key items =
      items.filter fun item => partition.IsFirst key items item :=
  eq_filter_of_sublist hn (leaders_sublist items) fun _ _ =>
    (mem_leaders_iff hn).trans (decide_eq_true_iff).symm

theorem leaders_map {γ : Type} (f : γ → β) (items : List γ) :
    partition.leaders key (items.map f) =
      (partition.leaders (fun item => key (f item)) items).map f := by
  have after (seen : List α) : partition.leadersAfter key seen (items.map f) =
      (partition.leadersAfter (fun item => key (f item)) seen items).map f := by
    induction items generalizing seen with
    | nil => rfl
    | cons item items ih =>
      simp only [List.map_cons, leadersAfter]
      split
      · exact ih seen
      · rw [ih, List.map_cons]
  exact after []

end GraphNaming.Partition
