import StackLift.Program.Hierarchy
import StackLift.Proofs.Search

/-!
# Subtypes, upwards and downwards

A hierarchy can be walked in two directions: from a type to what its declaration names, and from a type
to the declarations that name it. Nothing is asked of the declarations but that no id is registered
twice: they may come in any order, name types that are never registered, and close cycles.

**Results.**
* `isSubtype_iff_reaches`: the walk upwards finds exactly the types that a chain of direct supertypes
  leads to, the walk downwards finds the same pairs, and it lists no type twice.
-/
namespace StackLift

/-- The declaration names `parent` as its superclass or as one of its interfaces. -/
def TypeDecl.Names (d : TypeDecl) (parent : TypeId) : Prop :=
  d.superclass = some parent ∨ parent ∈ d.interfaces

theorem TypeDecl.mem_parents {d : TypeDecl} {t : TypeId} : t ∈ d.parents ↔ d.Names t := by
  simp [parents, Names]

namespace Hierarchy

variable {ds : List TypeDecl} {s t : TypeId}

/-- The hierarchy after a sequence of registrations. -/
def ofTypes (ds : List TypeDecl) : Hierarchy := ds.foldl addType {}

/-- One of the declarations makes `t` a direct supertype of `s`. -/
def Above (ds : List TypeDecl) (s t : TypeId) : Prop := ∃ d ∈ ds, d.id = s ∧ d.Names t

theorem types_ofTypes (ds : List TypeDecl) : (ofTypes ds).types = ds.reverse := by
  have hfold : ∀ (ds : List TypeDecl) (h : Hierarchy),
      (ds.foldl addType h).types = ds.reverse ++ h.types := by
    intro ds
    induction ds with
    | nil => exact fun _ => rfl
    | cons d ds ih =>
      intro h
      rw [List.foldl_cons, ih, addType, List.reverse_cons, List.append_assoc, List.singleton_append]
  rw [ofTypes, hfold, List.append_nil]

theorem typeDecl?_ofTypes (hds : (ds.map (·.id)).Nodup) {d : TypeDecl} :
    (ofTypes ds).typeDecl? s = some d ↔ d ∈ ds ∧ d.id = s := by
  rw [typeDecl?, types_ofTypes]
  constructor
  · intro h
    exact ⟨List.mem_reverse.1 (List.mem_of_find?_eq_some h), by simpa using List.find?_some h⟩
  · rintro ⟨hd, rfl⟩
    obtain ⟨x, hx⟩ := Option.isSome_iff_exists.1
      (List.find?_isSome (p := fun y : TypeDecl => decide (y.id = d.id))
        |>.2 ⟨d, List.mem_reverse.2 hd, by simp⟩)
    have hid : x.id = d.id := by simpa using List.find?_some hx
    rw [hx, List.inj_on_of_nodup_map hds (List.mem_reverse.1 (List.mem_of_find?_eq_some hx)) hd hid]

theorem mem_parents_iff (hds : (ds.map (·.id)).Nodup) : t ∈ (ofTypes ds).parents s ↔ Above ds s t := by
  unfold parents Above
  cases hs : (ofTypes ds).typeDecl? s with
  | none =>
    simp only [List.not_mem_nil, false_iff]
    rintro ⟨d, hd, hid, -⟩
    rw [(typeDecl?_ofTypes hds).2 ⟨hd, hid⟩] at hs
    cases hs
  | some x =>
    obtain ⟨hx, hid⟩ := (typeDecl?_ofTypes hds).1 hs
    simp only [TypeDecl.mem_parents]
    refine ⟨fun h => ⟨x, hx, hid, h⟩, ?_⟩
    rintro ⟨d, hd, hid', h⟩
    have hds' := (typeDecl?_ofTypes hds).2 ⟨hd, hid'⟩
    rw [hs] at hds'
    cases hds'
    exact h

theorem mem_children_iff : s ∈ (ofTypes ds).children t ↔ Above ds s t := by
  simp only [children, types_ofTypes, List.reverse_reverse, List.mem_flatMap, List.mem_map,
    List.mem_filter, decide_eq_true_eq, TypeDecl.mem_parents, Above]
  constructor
  · rintro ⟨d, hd, x, ⟨hx, rfl⟩, rfl⟩
    exact ⟨d, hd, rfl, hx⟩
  · rintro ⟨d, hd, rfl, hx⟩
    exact ⟨d, hd, t, ⟨hx, rfl⟩, rfl⟩

theorem mem_supertypes_iff (hds : (ds.map (·.id)).Nodup) :
    t ∈ (ofTypes ds).supertypes s ↔ Relation.ReflTransGen (Above ds) s t := by
  have hrel : (fun a b => b ∈ (ofTypes ds).parents a) = Above ds :=
    funext₂ fun a b => propext (mem_parents_iff hds)
  have hfuel : (ds.map (·.id)).length < (ofTypes ds).searchDepth := by
    simp only [searchDepth, types_ofTypes, List.length_map, List.length_reverse]
    omega
  rw [supertypes, Search.mem_visit_iff (P := fun _ => True) (by simp) ?_ hfuel trivial, hrel]
  intro u _
  refine or_iff_not_imp_left.2 fun hu => List.eq_nil_iff_forall_not_mem.2 fun x hx => hu ?_
  obtain ⟨d, hd, rfl, -⟩ := (mem_parents_iff hds).1 hx
  exact List.mem_map_of_mem hd

theorem mem_subtree_iff : s ∈ (ofTypes ds).subtree t ↔ Relation.ReflTransGen (Above ds) s t := by
  have hrel : (fun a b => b ∈ (ofTypes ds).children a) = Function.swap (Above ds) :=
    funext₂ fun a b => propext mem_children_iff
  have hfuel : (t :: ds.map (·.id)).length < (ofTypes ds).searchDepth := by
    simp only [searchDepth, types_ofTypes, List.length_cons, List.length_map, List.length_reverse]
    omega
  rw [subtree, Search.mem_visit_iff (P := (· ∈ t :: ds.map (·.id))) ?_ (fun _ => .inl) hfuel (by simp),
    hrel, Relation.reflTransGen_swap]
  intro u _ x hx
  obtain ⟨d, hd, rfl, -⟩ := mem_children_iff.1 hx
  exact List.mem_cons_of_mem _ (List.mem_map_of_mem hd)

/-- The two walks agree, whatever the declarations say. -/
theorem isSubtype_iff_reaches (ds : List TypeDecl) (hds : (ds.map (·.id)).Nodup) (s t : TypeId) :
    ((ofTypes ds).isSubtype s t = true ↔ Relation.ReflTransGen (Above ds) s t) ∧
      ((ofTypes ds).isSubtype s t = true ↔ s ∈ (ofTypes ds).subtree t) ∧
      ((ofTypes ds).subtree t).Nodup := by
  have hup : (ofTypes ds).isSubtype s t = true ↔ Relation.ReflTransGen (Above ds) s t := by
    rw [isSubtype, decide_eq_true_eq, mem_supertypes_iff hds]
  exact ⟨hup, hup.trans mem_subtree_iff.symm, Search.visit_nodup _ _ _ List.nodup_nil⟩

/-- Two types that extend each other, the second below an interface that is never registered. -/
def ring : List TypeDecl :=
  [{ id := ⟨1⟩, name := "Fore", superclass := some ⟨2⟩ },
    { id := ⟨2⟩, name := "Aft", superclass := some ⟨1⟩, interfaces := [⟨9⟩] }]

theorem isSubtype_ring : (ring.map (·.id)).Nodup ∧ (ofTypes ring).isSubtype ⟨1⟩ ⟨9⟩ = true ∧
    Relation.ReflTransGen (Above ring) ⟨1⟩ ⟨9⟩ ∧ ⟨1⟩ ∈ (ofTypes ring).subtree ⟨9⟩ ∧
    ((ofTypes ring).subtree ⟨9⟩).Nodup := by
  have hsub : (ofTypes ring).isSubtype ⟨1⟩ ⟨9⟩ = true := by decide
  obtain ⟨hup, hdown, hnodup⟩ := isSubtype_iff_reaches ring (by decide) ⟨1⟩ ⟨9⟩
  exact ⟨by decide, hsub, hup.1 hsub, hdown.1 hsub, hnodup⟩

end Hierarchy

end StackLift
