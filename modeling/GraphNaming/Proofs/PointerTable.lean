import GraphNaming.Linking.PointerTable
import GraphNaming.Proofs.Pointers

/-!
# What a table of pointers tells

Joining pairs of keys in a table of pointers gives the classes that a partition gives.

* `PointerTable.Tells`: the table holds the classes of a partition.
* `Tells.classOf_eq`: then it answers as the partition does.
* `Tells.join`: a join of two keys joins their classes.
* `ordered_disjoint_sets`: what a table answers, whatever pairs were joined.
-/

namespace GraphNaming.PointerTable

variable {α : Type} [DecidableEq α] {table : PointerTable α} {partition : Partition α} {a b key : α}

/-! ## Pointers -/

theorem leads_find (table : PointerTable α) (key : α) :
    Leads table.pointer key (table.find key) := by
  fun_induction find with
  | case1 key hup =>
    refine .stop ?_
    rw [pointer, hup]
    rfl
  | case2 key hup => exact .stop (pointer_of_up hup)
  | case3 key next hup hne ih =>
    have hnext := pointer_of_up hup
    exact .step (hnext ▸ hne) (hnext ▸ ih)

theorem find_eq_of_leads {last : α} (h : Leads table.pointer key last) : table.find key = last :=
  (table.leads_find key).unique h

/-- A key that was not known points to itself once it is. -/
theorem up_enter (table : PointerTable α) (key : α) :
    (table.enter key).up = put table.up key (some (table.pointer key)) := by
  funext other
  cases hup : table.up key with
  | some next =>
    rw [enter, if_pos (by simp [hup]), pointer_of_up hup]
    by_cases ho : other = key
    · rw [ho, put_self, hup]
    · rw [put_of_ne ho]
  | none =>
    rw [enter, if_neg (by simp [hup]), pointer, hup]
    rfl

theorem up_enter_self (table : PointerTable α) (key : α) : (table.enter key).up key ≠ none := by
  rw [up_enter, put_self]
  exact Option.some_ne_none _

/-- What is known stays known. -/
theorem up_enter_ne_none (key : α) (h : table.up a ≠ none) : (table.enter key).up a ≠ none := by
  by_cases ha : a = key
  · exact ha ▸ up_enter_self table key
  · rwa [up_enter, put_of_ne ha]

theorem pointer_enter (table : PointerTable α) (key : α) :
    (table.enter key).pointer = table.pointer := by
  funext other
  rw [pointer, up_enter]
  by_cases ho : other = key
  · rw [ho, put_self]
    rfl
  · rw [put_of_ne ho]
    rfl

theorem find_enter (table : PointerTable α) (key other : α) :
    (table.enter key).find other = table.find other := by
  refine find_eq_of_leads ?_
  rw [pointer_enter]
  exact table.leads_find other

section Attach

variable {leader other : α} {hend : table.pointer leader = leader} {hne : leader ≠ other}

theorem up_attach :
    (table.attach leader other hend hne).up = put table.up other (some leader) := rfl

theorem members_attach : (table.attach leader other hend hne).members =
    put (put table.members other none) leader
      (some ((table.members leader).getD [] ++ (table.members other).getD [])) := by
  simp only [attach, put_of_ne hne]

theorem pointer_attach : (table.attach leader other hend hne).pointer =
    Function.update table.pointer other leader := by
  funext key
  by_cases hk : key = other
  · rw [hk, Function.update_self]
    exact pointer_of_up (put_self _ _ _)
  · rw [Function.update_of_ne hk]
    exact congrArg (Option.getD · key) (put_of_ne hk _ _)

theorem find_attach (hother : table.pointer other = other) (key : α) :
    (table.attach leader other hend hne).find key =
      if table.find key = other then leader else table.find key := by
  refine find_eq_of_leads ?_
  rw [pointer_attach]
  exact (table.leads_find key).update hend hother hne

end Attach

/-! ## The classes of a partition -/

/-- The table finds the representatives, which have the members. Only keys that are alone are not
known. -/
structure Tells (table : PointerTable α) (partition : Partition α) : Prop where
  find_eq : ∀ key, table.find key = partition.representative key
  unknown : ∀ key, table.up key = none → partition.classOf key = [key]
  members : ∀ key, table.members key =
    if table.up key = some key then some (partition.classOf key) else none

theorem tells_empty : (empty : PointerTable α).Tells .empty where
  find_eq key := by
    rw [Partition.representative_empty]
    exact find_eq_of_leads (.stop rfl)
  unknown _ _ := rfl
  members _ := rfl

namespace Tells

section Answers

variable (h : table.Tells partition)
include h

theorem related_eq (a b : α) : table.related a b = partition.related a b := by
  rw [related, h.find_eq, h.find_eq]
  rfl

/-- A key that points to itself leads its class. -/
theorem representative_eq (hup : table.up key = some key) : partition.representative key = key := by
  rw [← h.find_eq]
  exact find_eq_of_leads (.stop (pointer_of_up hup))

/-- The representative of a key that is known points to itself. -/
theorem up_representative (hp : partition.Valid) (hkey : table.up key ≠ none) :
    table.up (partition.representative key) = some (partition.representative key) := by
  have hlast := table.pointer_find key
  rw [h.find_eq] at hlast
  cases hup : table.up (partition.representative key) with
  | some next => rw [← pointer_of_up hup, hlast]
  | none =>
    have hclass := h.unknown _ hup
    rw [hp.classOf_representative] at hclass
    have hself : key = partition.representative key :=
      List.mem_singleton.1 (hclass ▸ partition.mem_classOf_self key)
    exact absurd (hself ▸ hup) hkey

theorem members_representative (hp : partition.Valid) (hkey : table.up key ≠ none) :
    table.members (partition.representative key) = some (partition.classOf key) := by
  rw [h.members, if_pos (h.up_representative hp hkey), hp.classOf_representative]

theorem classOf_eq (hp : partition.Valid) (key : α) :
    table.classOf key = partition.classOf key := by
  rw [classOf, h.find_eq]
  by_cases hkey : table.up key = none
  · have hclass := h.unknown key hkey
    have hself : partition.representative key = key := by rw [Partition.representative, hclass]; rfl
    simp [hself, h.members, hkey, hclass]
  · rw [h.members_representative hp hkey]
    rfl

/-- A key that is not known is in no other class. -/
theorem not_mem_classOf (hp : partition.Valid) (hkey : table.up key = none)
    (ha : table.up a ≠ none) : key ∉ partition.classOf a := by
  intro hmem
  have hclass := (hp.classOf_of_mem hmem).symm.trans (h.unknown key hkey)
  have hself : a = key := List.mem_singleton.1 (hclass ▸ partition.mem_classOf_self a)
  exact ha (hself ▸ hkey)

end Answers

/-! ## Joins -/

/-- A key that becomes known is alone. -/
theorem enter (h : table.Tells partition) (key : α) : (table.enter key).Tells partition where
  find_eq other := (table.find_enter key other).trans (h.find_eq other)
  unknown other hother := by
    refine h.unknown other ?_
    by_cases ho : other = key
    · rw [up_enter, ho, put_self] at hother
      cases hother
    · rwa [up_enter, put_of_ne ho] at hother
  members other := by
    by_cases hup : (table.up key).isSome
    · rw [PointerTable.enter, if_pos hup]
      exact h.members other
    · rw [PointerTable.enter, if_neg hup]
      by_cases ho : other = key
      · rw [Option.not_isSome_iff_eq_none] at hup
        simp only [ho, put_self, if_true, h.unknown key hup]
      · simpa only [put_of_ne ho] using h.members other

/-- The members of the classes once the one leader is attached to the other. -/
theorem members_attach_eq (h : table.Tells partition) (hp : partition.Valid)
    (ha : table.up a ≠ none) (hne : partition.representative a ≠ partition.representative b)
    (hab : partition.related a b = false) (key : α) :
    put (put table.members (partition.representative b) none) (partition.representative a)
        (some (partition.classOf a ++ partition.classOf b)) key =
      if put table.up (partition.representative b) (some (partition.representative a)) key =
          some key then
        some ((partition.join a b).classOf key)
      else none := by
  rw [Partition.classOf_join hp hab]
  -- The leader of the one class has both member lists, that of the other none, and the rest keep
  -- theirs.
  by_cases hleader : key = partition.representative a
  · rw [hleader, put_self, put_of_ne hne, if_pos (h.up_representative hp ha),
      if_pos (List.mem_append_left _ (partition.representative_mem a))]
  · rw [put_of_ne hleader]
    by_cases hother : key = partition.representative b
    · rw [hother, put_self, put_self, if_neg (by simpa using hne)]
    · rw [put_of_ne hother, put_of_ne hother, h.members]
      by_cases hup : table.up key = some key
      · -- A key that leads a class of its own is in neither of the two.
        rw [if_pos hup, if_pos hup, if_neg]
        intro hmem
        rw [List.mem_append, hp.mem_classOf, hp.mem_classOf, Partition.related_eq_true,
          Partition.related_eq_true, h.representative_eq hup] at hmem
        exact hmem.elim (hleader ·.symm) (hother ·.symm)
      · rw [if_neg hup, if_neg hup]

/-- Attaching the one leader to the other joins the classes of two keys that are known. -/
theorem attach (h : table.Tells partition) (hp : partition.Valid) (ha : table.up a ≠ none)
    (hb : table.up b ≠ none) (hne : table.find a ≠ table.find b) :
    (table.attach (table.find a) (table.find b) (table.pointer_find a) hne).Tells
      (partition.join a b) := by
  have hab : partition.related a b = false := by
    rwa [← h.related_eq, related, beq_eq_false_iff_ne]
  refine ⟨fun key => ?_, fun key hkey => ?_, fun key => ?_⟩
  · rw [find_attach (table.pointer_find b), Partition.representative_join hp hab]
    simp only [h.find_eq]
  · have hold : table.up key = none := by
      by_cases hk : key = table.find b
      · rw [up_attach, hk, put_self] at hkey
        cases hkey
      · rwa [up_attach, put_of_ne hk] at hkey
    rw [Partition.classOf_join hp hab, if_neg, h.unknown key hold]
    exact fun hmem => (List.mem_append.1 hmem).elim (h.not_mem_classOf hp hold ha)
      (h.not_mem_classOf hp hold hb)
  · rw [members_attach, up_attach]
    simp only [h.find_eq] at hne ⊢
    rw [h.members_representative hp ha, h.members_representative hp hb]
    exact h.members_attach_eq hp ha hne hab key

/-- A join of two keys puts their classes together. -/
theorem join (h : table.Tells partition) (hp : partition.Valid) (a b : α) :
    (table.join a b).Tells (partition.join a b) := by
  have hknown : ((table.enter a).enter b).Tells partition := (h.enter a).enter b
  have ha : ((table.enter a).enter b).up a ≠ none := up_enter_ne_none _ (up_enter_self table a)
  have hb : ((table.enter a).enter b).up b ≠ none := up_enter_self (table.enter a) b
  by_cases heq : ((table.enter a).enter b).find a = ((table.enter a).enter b).find b
  · have hab : partition.related a b = true := by rwa [← hknown.related_eq, related, beq_iff_eq]
    have hsame : table.join a b = (table.enter a).enter b := dif_pos heq
    rwa [hsame, Partition.join_of_related hab]
  · have hattach : table.join a b = ((table.enter a).enter b).attach _ _ _ heq := dif_neg heq
    rw [hattach]
    exact hknown.attach hp ha hb heq

/-- Whatever pairs are joined, the table tells what the partition does. -/
theorem joinAll (h : table.Tells partition) (hp : partition.Valid) (pairs : List (α × α)) :
    (table.joinAll pairs).Tells (partition.joinAll pairs) := by
  induction pairs generalizing table partition with
  | nil => exact h
  | cons pair pairs ih => exact ih (h.join hp pair.1 pair.2) (hp.join pair.1 pair.2)

end Tells

theorem tells_ofPairs (pairs : List (α × α)) :
    (ofPairs pairs).Tells (Partition.empty.joinAll pairs) :=
  tells_empty.joinAll Partition.valid_empty pairs

/-- Whatever pairs were joined, following the pointers from a key comes to an end at the leader of
its class. The classes are those of the equivalence that the pairs generate, each with its leader
first and no key twice, and a key of no pair is alone. To join keys of one class changes nothing.
To join keys of two classes puts the members of the second after those of the first, whose leader
stays, and changes no other class. -/
theorem ordered_disjoint_sets (pairs : List (α × α)) :
    (∀ key, Leads (ofPairs pairs).pointer key ((ofPairs pairs).find key) ∧
      (ofPairs pairs).find key = (Partition.empty.joinAll pairs).representative key ∧
      (ofPairs pairs).classOf key = (Partition.empty.joinAll pairs).classOf key) ∧
    (∀ a b, (ofPairs pairs).related a b = true ↔
      Relation.EqvGen (fun x y => (x, y) ∈ pairs) a b) ∧
    (∀ key, ((ofPairs pairs).classOf key).Nodup ∧
      ((ofPairs pairs).classOf key).head? = some ((ofPairs pairs).find key) ∧
      (∀ other, other ∈ (ofPairs pairs).classOf key ↔ (ofPairs pairs).related key other = true) ∧
      ((∀ pair ∈ pairs, pair.1 ≠ key ∧ pair.2 ≠ key) → (ofPairs pairs).classOf key = [key])) ∧
    (∀ a b, (ofPairs pairs).related a b = true →
      (ofPairs pairs).classOf a = (ofPairs pairs).classOf b ∧
      ∀ key, ((ofPairs pairs).join a b).find key = (ofPairs pairs).find key ∧
        ((ofPairs pairs).join a b).classOf key = (ofPairs pairs).classOf key) ∧
    ∀ a b, (ofPairs pairs).related a b = false → ∀ key,
      ((ofPairs pairs).related a key = true ∨ (ofPairs pairs).related b key = true →
        ((ofPairs pairs).join a b).find key = (ofPairs pairs).find a ∧
          ((ofPairs pairs).join a b).classOf key =
            (ofPairs pairs).classOf a ++ (ofPairs pairs).classOf b) ∧
      ((ofPairs pairs).related a key = false → (ofPairs pairs).related b key = false →
        ((ofPairs pairs).join a b).find key = (ofPairs pairs).find key ∧
          ((ofPairs pairs).join a b).classOf key = (ofPairs pairs).classOf key) := by
  have htells := tells_ofPairs pairs
  have hp : (Partition.empty.joinAll pairs).Valid := Partition.valid_empty.joinAll pairs
  have hjoin (a b key : α) :
      ((ofPairs pairs).join a b).find key =
        ((Partition.empty.joinAll pairs).join a b).representative key ∧
      ((ofPairs pairs).join a b).classOf key =
        ((Partition.empty.joinAll pairs).join a b).classOf key :=
    ⟨(htells.join hp a b).find_eq key, (htells.join hp a b).classOf_eq (hp.join a b) key⟩
  refine ⟨fun key => ⟨leads_find _ key, htells.find_eq key, htells.classOf_eq hp key⟩, ?_⟩
  -- All that is said of the table is said of the partition from here on.
  simp only [htells.find_eq, htells.classOf_eq hp, htells.related_eq, hjoin]
  refine ⟨fun a b => ?_, fun key => ?_, fun a b hab => ?_, fun a b hab key => ?_⟩
  · exact Partition.related_joinAll_empty
  · exact ⟨hp.nodup_classOf key, Partition.head?_classOf _ key, fun other => hp.mem_classOf,
      Partition.classOf_joinAll_of_ne Partition.valid_empty rfl⟩
  · rw [Partition.join_of_related hab]
    exact ⟨hp.related_iff.1 hab, fun key => ⟨rfl, rfl⟩⟩
  · refine ⟨fun hkey => ?_, fun ha hb => ?_⟩
    · exact ⟨Partition.representative_join_of_related hp hab hkey,
        Partition.classOf_join_of_related hp hab hkey⟩
    · have hclass := Partition.classOf_join_of_apart hp hab ha hb
      exact ⟨congrArg (·.headD key) hclass, hclass⟩

/-- The second key of the first pair is joined once more, and its class comes after the new key. -/
theorem ordered_disjoint_sets_chain :
    (ofPairs [(1, 2), (3, 2)]).find 2 = 3 ∧ (ofPairs [(1, 2), (3, 2)]).classOf 2 = [3, 1, 2] ∧
      (ofPairs [(1, 2), (3, 2)]).related 1 3 = true ∧
      (ofPairs [(1, 2), (3, 2)]).classOf 9 = [9] := by
  obtain ⟨hclasses, hrelated, halone, -⟩ := ordered_disjoint_sets [(1, 2), (3, 2)]
  obtain ⟨-, hfind, hclass⟩ := hclasses 2
  obtain ⟨-, -, -, hnine⟩ := halone 9
  have hpath : Relation.EqvGen (fun x y => (x, y) ∈ [(1, 2), (3, 2)]) 1 3 :=
    .trans 1 2 3 (.rel 1 2 (by decide)) (.symm 3 2 (.rel 3 2 (by decide)))
  exact ⟨hfind.trans (by decide), hclass.trans (by decide), (hrelated 1 3).2 hpath,
    hnine (by decide)⟩

end GraphNaming.PointerTable
