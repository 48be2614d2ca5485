import Quill.Proofs.Defined
import Quill.Reflection

/-!
# What can be told about new types

A type or module that was just defined is found under its path, and what can be told about it is
what its definition says. Main statements: `Types.Hosts.defined`, `State.typeSummary_of_hosts`.
-/

namespace Quill

/-- What can be told about a method with a single clause, which is `d`. -/
def MethodDef.summary (d : MethodDef) : MethodSummary :=
  ⟨d.name.name, [⟨d.params.required, d.params.isVariadic, false, d.doc⟩]⟩

/-- What can be told about the type or module `t` that has the path and is defined by `d`, with what
is nested in it. -/
def TypeDef.summary (d : TypeDef) (s : State) (t : TypeId) (path : List String)
    (nested : List TypeSummary) : TypeSummary where
  name := ".".intercalate path
  sort := d.sort
  doc := d.doc
  ancestors := (s.types.ancestors t).map s.types.name
  superclass := (s.types.superclass t).map s.types.name
  instanceMethods := (Expr.methods false d.body).map MethodDef.summary
  classMethods := (Expr.methods true d.body).map MethodDef.summary
  constants := []
  nested := nested

namespace Types

variable {ts : Types} {container t u : TypeId} {outer path : List String} {es : List Expr}
  {ids inner : List TypeId} {least : Nat}

theorem follow_append (ts : Types) (t : TypeId) (names : List String) (name : String) :
    ts.follow t (names ++ [name]) = (ts.follow t names).bind (ts.follow · [name]) := by
  induction names generalizing t with
  | nil => rfl
  | cons first names ih =>
    rw [List.cons_append, follow, follow]
    cases ts.constant? t first with
    | none => rfl
    | some v => cases v with
      | type t' => exact ih t'
      | _ => rfl

theorem follow_one {name : String} (h : ts.constant? container name = some (.type t)) :
    ts.follow container [name] = some t := by
  rw [follow, h]
  rfl

namespace Hosts

theorem least_le (h : ts.Hosts least container outer es ids) : ∀ u ∈ ids, least ≤ u.index := by
  induction h with
  | nil => exact fun _ h ↦ nomatch h
  | type hleast _ _ _ _ _ ih => exact List.forall_mem_cons.mpr ⟨hleast, ih⟩
  | method _ ih => exact ih

theorem parents (h : ts.Hosts least container outer es ids)
    (hcontainer : container ≠ CoreType.object.id) : ∀ u ∈ ids, ts.parent u = some container := by
  induction h with
  | nil => exact fun _ h ↦ nomatch h
  | type _ _ hget _ _ _ ih =>
    refine List.forall_mem_cons.mpr ⟨?_, ih hcontainer⟩
    rw [parent, hget]
    exact if_neg hcontainer
  | method _ ih => exact ih hcontainer

theorem types (h : ts.Hosts least container outer es ids) :
    (TypeDef.constants (Expr.types es) ids).filterMap (·.2.type?) = ids := by
  induction h with
  | nil => rfl
  | type _ _ _ _ _ _ ih => exact congrArg (List.cons _) ih
  | method _ ih => exact ih

theorem constants (h : ts.Hosts least container outer es ids) :
    ∀ p ∈ TypeDef.constants (Expr.types es) ids, ∃ u ∈ ids, p.2 = .type u := by
  induction h with
  | nil => exact fun _ h ↦ nomatch h
  | type _ _ _ _ _ _ ih =>
    refine List.forall_mem_cons.mpr ⟨⟨_, List.mem_cons_self, rfl⟩, fun p hp ↦ ?_⟩
    obtain ⟨u, hu, hp⟩ := ih p hp
    exact ⟨u, List.mem_cons_of_mem _ hu, hp⟩
  | method _ ih => exact ih

theorem follow (h : ts.Hosts least container outer es ids) :
    (Expr.types es).map (fun d ↦ ts.follow container [d.name.name]) = ids.map some := by
  induction h with
  | nil => rfl
  | type _ hconstant _ _ _ _ ih => exact congrArg₂ List.cons (follow_one hconstant) ih
  | method _ ih => exact ih

theorem of_mem (h : ts.Hosts least container outer es ids) {d : TypeDef} {s : Span}
    (hd : ⟨.type d, s⟩ ∈ es) : ∃ t inner, least ≤ t.index ∧
      ts.constant? container d.name.name = some (.type t) ∧
      ts.get? t = some ((d.made container (outer ++ [d.name.name])).filled d.body inner) ∧
      ts.Hosts (t.index + 1) t (outer ++ [d.name.name]) d.body inner := by
  induction h with
  | nil => cases hd
  | @type _ _ t _ _ _ _ _ inner hleast hconstant hget hbody _ _ ih =>
    cases hd with
    | head => exact ⟨t, inner, hleast, hconstant, hget, hbody⟩
    | tail _ hd => exact ih hd
  | method _ ih =>
    cases hd with
    | tail _ hd => exact ih hd

theorem defined (h : ts.Hosts least container outer es ids) {path : List String} {d : TypeDef}
    {s : Span} (hd : Expr.Defines es path ⟨.type d, s⟩) : ∃ t inner around, least ≤ t.index ∧
      ts.follow container (path ++ [d.name.name]) = some t ∧
      ts.get? t = some ((d.made around (outer ++ path ++ [d.name.name])).filled d.body inner) ∧
      ts.Hosts (t.index + 1) t (outer ++ path ++ [d.name.name]) d.body inner := by
  generalize he : (⟨.type d, s⟩ : Expr) = e at hd
  induction hd generalizing least container outer ids with
  | here hmem =>
    subst he
    obtain ⟨t, inner, hleast, hconstant, hget, hbody⟩ := h.of_mem hmem
    rw [List.append_nil]
    exact ⟨t, inner, container, hleast, follow_one hconstant, hget, hbody⟩
  | @inside es d' s' path e hmem _ ih =>
    obtain ⟨t', inner', hleast', hconstant', -, hbody'⟩ := h.of_mem hmem
    obtain ⟨t, inner, around, hleast, hfollow, hget, hbody⟩ := ih hbody' he
    rw [List.append_assoc outer, List.singleton_append] at hget hbody
    refine ⟨t, inner, around, by omega, ?_, hget, hbody⟩
    rw [List.cons_append, Types.follow, hconstant']
    exact hfollow

end Hosts

end Types

namespace State

variable {s : State} {d : TypeDef} {t around : TypeId} {path : List String} {es : List Expr}
  {ids inner : List TypeId} {least : Nat}

theorem nestedTypes_of_hosts (h : s.types.Hosts least t path es ids)
    (ht : t ≠ CoreType.object.id) :
    s.nestedTypes t (TypeDef.constants (Expr.types es) ids) = ids := by
  rw [nestedTypes, h.types, List.filter_eq_self]
  exact fun u hu ↦ beq_iff_eq.mpr (h.parents ht u hu)

theorem constantSummary?_of_hosts (h : s.types.Hosts least t path es ids)
    (ht : t ≠ CoreType.object.id) :
    (TypeDef.constants (Expr.types es) ids).filterMap (s.constantSummary? t) = [] := by
  refine List.filterMap_eq_nil_iff.mpr fun p hp ↦ ?_
  obtain ⟨name, v⟩ := p
  obtain ⟨u, hu, hv⟩ := h.constants _ hp
  obtain rfl : v = .type u := hv
  have hparent : (s.types.parent u == some t) = true := beq_iff_eq.mpr (h.parents ht u hu)
  rw [constantSummary?, Value.type?, Option.any_some, hparent, if_pos rfl]

theorem typeSummaryWithin_of_hosts
    (hget : s.types.get? t = some ((d.made around path).filled d.body inner))
    (h : s.types.Hosts least t path d.body inner) (ht : t ≠ CoreType.object.id) (n : Nat) :
    s.typeSummaryWithin (n + 1) t =
      d.summary s t path (inner.map (s.typeSummaryWithin n)) := by
  have hsummary (ds : List MethodDef) :
      MethodTable.summary ⟨ds.map MethodDef.entry⟩ = ds.map MethodDef.summary := by
    rw [MethodTable.summary, List.map_map]
    rfl
  have hentries : ((d.made around path).filled d.body inner).constants.entries =
      TypeDef.constants (Expr.types d.body) inner := rfl
  have hsuper : s.types.superclass t = (d.made around path).superclass := by
    rw [Types.superclass, hget]
    rfl
  rw [typeSummaryWithin, hget, Option.getD_some, hentries, constantSummary?_of_hosts h ht,
    nestedTypes_of_hosts h ht, TypeDef.summary, ← hsummary, ← hsummary, hsuper]
  rfl

/-- Beyond the number of types, a further level makes no difference: what is nested has a greater
number than what it is nested in. -/
theorem typeSummaryWithin_eq (h : s.types.Hosts least around path es ids) (hleast : 0 < least) :
    ∀ u ∈ ids, ∀ n m, s.types.all.size ≤ n + u.index → s.types.all.size ≤ m + u.index →
      s.typeSummaryWithin n u = s.typeSummaryWithin m u := by
  induction h with
  | nil => exact fun _ h ↦ nomatch h
  | @type _ _ t _ _ _ _ _ inner ht _ hget hbody _ ihbody ihrest =>
    refine List.forall_mem_cons.mpr ⟨fun n m hn hm ↦ ?_, ihrest hleast⟩
    have hlt := Types.lt_of_get? hget
    have hobject : t ≠ CoreType.object.id := 
      Types.ne_of_index (Nat.ne_of_gt (Nat.lt_of_lt_of_le hleast ht))
    obtain ⟨n, rfl⟩ : ∃ k, n = k + 1 := Nat.exists_eq_succ_of_ne_zero (by omega)
    obtain ⟨m, rfl⟩ : ∃ k, m = k + 1 := Nat.exists_eq_succ_of_ne_zero (by omega)
    rw [typeSummaryWithin_of_hosts hget hbody hobject,
      typeSummaryWithin_of_hosts hget hbody hobject]
    have hnested : inner.map (s.typeSummaryWithin n) = inner.map (s.typeSummaryWithin m) := by
      refine List.map_congr_left fun u hu ↦ ihbody (Nat.succ_pos _) u hu n m ?_ ?_ <;>
      · have := hbody.least_le u hu
        omega
    rw [hnested]
  | method _ ih => exact ih hleast

theorem typeSummary_of_hosts
    (hget : s.types.get? t = some ((d.made around path).filled d.body inner))
    (h : s.types.Hosts (t.index + 1) t path d.body inner) (ht : 0 < t.index) :
    s.typeSummary t = d.summary s t path (inner.map s.typeSummary) := by
  have hlt := Types.lt_of_get? hget
  obtain ⟨n, hn⟩ : ∃ k, s.types.all.size = k + 1 := Nat.exists_eq_succ_of_ne_zero (by omega)
  have hnested : inner.map (s.typeSummaryWithin n) = inner.map s.typeSummary := by
    refine List.map_congr_left fun u hu ↦ ?_
    have hle := h.least_le u hu
    exact typeSummaryWithin_eq h (Nat.succ_pos _) u hu _ _ (by omega) (by omega)
  rw [typeSummary, hn, typeSummaryWithin_of_hosts hget h (Types.ne_of_index (Nat.ne_of_gt ht)),
    hnested]

end State

end Quill
