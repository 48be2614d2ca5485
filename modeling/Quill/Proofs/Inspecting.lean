import Quill.Proofs.Answering
import Quill.Proofs.RawText
import Quill.Proofs.Texts

/-!
# Lists in lists as text

A list is shown with its items, each list among them in a call of its own, but not the list itself
once more. So calls are nested as deep as lists are, and there is a text exactly if that is not too
deep. Where different lists are in each other it always is: `lists_shown`.
-/

namespace Quill

namespace State

variable {s : State} {l m : ListId} {n : Nat} {text : String} {around : List ListId}

/-- The second list is an item of the first one, and not the same list. -/
def Nests (s : State) (l m : ListId) : Prop := s.HasItem l m ∧ m ≠ l

/-- The list, or one in it, is in a different list that is in it in turn. -/
def Entangled (s : State) (l : ListId) : Prop :=
  ∃ m, Relation.ReflTransGen s.Nests l m ∧ Relation.TransGen s.Nests m m

theorem Entangled.next (h : s.Entangled l) : ∃ m, s.Nests l m ∧ s.Entangled m := by
  obtain ⟨m, hwithin, hloop⟩ := h
  obtain rfl | ⟨l₁, hfirst, hrest⟩ := hwithin.cases_head
  · obtain ⟨l₁, hfirst, hback⟩ := Relation.TransGen.head'_iff.mp hloop
    exact ⟨l₁, hfirst, l, hback, hloop⟩
  · exact ⟨l₁, hfirst, m, hrest, hloop⟩

theorem chain_of_nodup {path : List ListId} (h : (l :: path).IsChain s.HasItem)
    (hnodup : (l :: path).Nodup) : (l :: path).IsChain s.Nests := by
  induction path generalizing l with
  | nil => exact .singleton l
  | cons m path ih =>
    obtain ⟨hfirst, hrest⟩ := List.isChain_cons_cons.mp h
    obtain ⟨hl, hnodup⟩ := List.nodup_cons.mp hnodup
    refine List.isChain_cons_cons.mpr ⟨⟨hfirst, fun heq ↦ hl ?_⟩, ih hrest hnodup⟩
    exact heq ▸ List.mem_cons_self

mutual

/-- The text of a value inside these lists, where `[...]` stands for one of them. -/
inductive Shows (s : State) : List ListId → Value → String → Prop
  | plain {around : List ListId} {v : Value} {text : String} :
      s.inspectText? v = some text → Shows s around v text
  | again {around : List ListId} {l : ListId} : l ∈ around → Shows s around (.list l) "[...]"
  | list {around : List ListId} {l : ListId} {texts : List String} : l ∉ around →
      ShowsAll s (l :: around) (s.items l).toList texts →
      Shows s around (.list l) ("[" ++ ", ".intercalate texts ++ "]")

inductive ShowsAll (s : State) : List ListId → List Value → List String → Prop
  | nil {around : List ListId} : ShowsAll s around [] []
  | cons {around : List ListId} {v : Value} {text : String} {vs : List Value}
      {texts : List String} : Shows s around v text → ShowsAll s around vs texts →
      ShowsAll s around (v :: vs) (text :: texts)

end

def itemText? (s : State) (l : ListId) (shown : ListId → Option String) : Value → Option String
  | .list m => if m = l then some "[...]" else shown m
  | v => s.inspectText? v

/-- The text that is found with at most `n` calls inside each other. -/
def listText? (s : State) : Nat → ListId → Option String
  | 0, _ => none
  | n + 1, l => ((s.items l).toList.mapM (s.itemText? l (listText? s n))).map fun texts ↦
      "[" ++ ", ".intercalate texts ++ "]"

/-- No lists are in each other, and no more of them one in the other than `n`. -/
def Layered (s : State) (n : Nat) (l : ListId) : Prop :=
  ¬ s.Entangled l ∧ ∀ path, (l :: path).IsChain s.HasItem → (l :: path).Nodup →
    (l :: path).length ≤ n

/-- None of the items of the list, and of those in it, is an instance. -/
def ShowsItself (s : State) (l : ListId) : Prop :=
  ∀ m, Relation.ReflTransGen s.HasItem l m → ∀ v ∈ (s.items m).toList, v.object? = none

theorem ShowsItself.nests (h : s.ShowsItself l) (hm : s.Nests l m) : s.ShowsItself m :=
  fun m' hm' ↦ h m' (.head hm.1 hm')

theorem isSome_listText?_succ : (s.listText? (n + 1) l).isSome =
    (s.items l).toList.all fun v ↦ (s.itemText? l (s.listText? n) v).isSome := by
  rw [listText?, Option.isSome_map, isSome_mapM]

theorem Entangled.listText? (h : s.Entangled l) (n : Nat) : s.listText? n l = none := by
  induction n generalizing l with
  | zero => rfl
  | succ n ih =>
    obtain ⟨m, ⟨hitem, hne⟩, hm⟩ := h.next
    rw [← Option.not_isSome_iff_eq_none, isSome_listText?_succ, List.all_eq_true]
    intro hall
    have hshown := hall _ hitem
    rw [itemText?, if_neg hne, ih hm] at hshown
    cases hshown

theorem length_le_of_listText? {path : List ListId} (h : (s.listText? n l).isSome)
    (hpath : (l :: path).IsChain s.Nests) : (l :: path).length ≤ n := by
  induction path generalizing n l with
  | nil =>
    cases n with
    | zero => cases h
    | succ n => exact Nat.succ_le_succ (Nat.zero_le n)
  | cons m path ih =>
    cases n with
    | zero => cases h
    | succ n =>
      obtain ⟨⟨hitem, hne⟩, hrest⟩ := List.isChain_cons_cons.mp hpath
      rw [isSome_listText?_succ, List.all_eq_true] at h
      have hm := h _ hitem
      rw [itemText?, if_neg hne] at hm
      exact Nat.succ_le_succ (ih hm hrest)

theorem isSome_listText? (hl : s.ShowsItself l)
    (h : ∀ path, (l :: path).IsChain s.Nests → (l :: path).length ≤ n) :
    (s.listText? n l).isSome := by
  induction n generalizing l with
  | zero => exact absurd (h [] (.singleton l)) (by simp)
  | succ n ih =>
    rw [isSome_listText?_succ, List.all_eq_true]
    intro v hv
    have hobject := hl l .refl v hv
    cases v with
    | list m =>
      rw [itemText?]
      split
      · rfl
      · rename_i hne
        have hm : s.Nests l m := ⟨hv, hne⟩
        exact ih (hl.nests hm) fun path hpath ↦
          Nat.le_of_succ_le_succ (h (m :: path) (List.isChain_cons_cons.mpr ⟨hm, hpath⟩))
    | object o => cases hobject
    | _ => rfl

/-- There is a text exactly if no lists are in each other, and no deeper than there are calls. -/
theorem isSome_listText?_iff (hl : s.ShowsItself l) :
    (s.listText? n l).isSome ↔ s.Layered n l := by
  constructor
  · intro h
    refine ⟨fun hentangled ↦ ?_, fun path hpath hnodup ↦
      length_le_of_listText? h (chain_of_nodup hpath hnodup)⟩
    rw [hentangled.listText? n] at h
    cases h
  · rintro ⟨hentangled, h⟩
    exact isSome_listText? hl fun path hpath ↦
      h path (hpath.imp fun _ _ ↦ And.left)
        (nodup_of_chain hpath fun m hm hloop ↦ hentangled ⟨m, hm, hloop⟩)

theorem showsAll_of_mapM {f : Value → Option String} {vs : List Value} {texts : List String}
    (h : vs.mapM f = some texts)
    (hf : ∀ v ∈ vs, ∀ text, f v = some text → s.Shows around v text) :
    s.ShowsAll around vs texts := by
  induction vs generalizing texts with
  | nil =>
    cases h
    exact .nil
  | cons v vs ih =>
    obtain ⟨hv, hvs⟩ := List.forall_mem_cons.mp hf
    rw [List.mapM_cons] at h
    obtain ⟨text, htext, h⟩ := Option.bind_eq_some_iff.mp h
    obtain ⟨texts, htexts, h⟩ := Option.bind_eq_some_iff.mp h
    cases h
    exact .cons (hv text htext) (ih htexts hvs)

theorem shows_of_listText? (h : s.listText? n l = some text)
    (haround : ∀ m ∈ around, ¬ Relation.ReflTransGen s.Nests l m) :
    s.Shows around (.list l) text := by
  induction n generalizing l text around with
  | zero => cases h
  | succ n ih =>
    have hfree : ¬ s.Entangled l := fun hentangled ↦ by
      rw [hentangled.listText?] at h
      cases h
    rw [listText?, Option.map_eq_some_iff] at h
    obtain ⟨texts, htexts, rfl⟩ := h
    refine .list (fun hl ↦ haround l hl .refl) (showsAll_of_mapM htexts fun v hv text htext ↦ ?_)
    cases v with
    | list m =>
      rw [itemText?] at htext
      split at htext
      · rename_i heq
        cases htext
        exact .again (heq ▸ List.mem_cons_self)
      · rename_i hne
        have hm : s.Nests l m := ⟨hv, hne⟩
        refine ih htext (List.forall_mem_cons.mpr ⟨fun hback ↦ ?_, fun m' hm' hback ↦ ?_⟩)
        · exact hfree ⟨l, .refl, .head' hm hback⟩
        · exact haround m' hm' (.head hm hback)
    | _ => exact .plain htext

end State

open Eval

/-- The method that shows a list, to either audience. -/
def Routine.listShown (a : Audience) : Entry := fixed .list .list a.message [] (.list .inspect)

def Types.ListsInstalled (ts : Types) : Prop := ∀ a : Audience, ts.FindsInstalled a.message [.list]

theorem Types.ListsInstalled.offers {ts : Types} (h : ts.ListsInstalled) (a : Audience) :
    ts.offers .list (Routine.listShown a) = true :=
  FindsInstalled.offers (e := Routine.listShown a) (h a) (List.mem_singleton_self _)
    (by cases a <;> decide +kernel)

/-- What looking for a text comes to, where calls may be nested too deep for it. -/
def Eval.found {α : Type} (s : State) (text : Option α) : Outcome α :=
  match text with
  | some text => .ok text
  | none => .error (.halt (.depth s.config.maxCallDepth))

variable {s : State} {l : ListId} {n : Nat} {a : Audience} {span : Span}

namespace State

theorem itemText?_plain {v : Value} (s : State) (l : ListId) (shown : ListId → Option String)
    (hv : v.object? = none) (hlist : v.list? = none) :
    ∃ text, s.inspectText? v = some text ∧ s.itemText? l shown v = some text := by
  cases v with
  | list m => cases hlist
  | object o => cases hv
  | _ => exact ⟨_, rfl, rfl⟩

theorem listText?_called (s : State) (n : Nat) (l : ListId) (held : List Held)
    (frames : Array CallFrame) :
    State.listText? { s with held, frames } n l = s.listText? n l := by
  induction n generalizing l with
  | zero => rfl
  | succ n ih =>
    rw [listText?, listText?, funext ih]
    rfl

end State

theorem Eval.inspect_plain {v : Value} {text : String} (h : s.inspectText? v = some text) :
    (Eval.inspect v).Gives s (.ok text) s := Audience.text_of_direct (a := .programs) h

theorem Eval.inspect_list {m : ListId} {text : Option String}
    (h : (send (.list m) "inspect" [] none .origin).Gives
      { s with held := ⟨[.list m], none⟩ :: s.held } (found s (text.map .str))
      { s with held := ⟨[.list m], none⟩ :: s.held }) :
    (Eval.inspect (.list m)).Gives s (found s text) s := by
  refine .bind (.read _ s) ?_
  cases text with
  | none => exact .bind_error h.keeping
  | some text => exact .bind h.keeping (.read _ s)

namespace ListRoutine

theorem inspectItems_cons {v : Value} {vs : List Value} {done : List String} :
    inspectItems l done (v :: vs) =
      (if v.list? = some l then pure "[...]" else holding vs (Eval.inspect v)) >>= fun text ↦
        inspectItems l (text :: done) vs := by
  rw [inspectItems]
  split <;> rfl

theorem inspectItem_gives {shown : ListId → Option String} {v : Value} (vs : List Value)
    (hv : v.object? = none)
    (h : ∀ m, v = .list m → m ≠ l → ∀ held,
      (Eval.inspect (.list m)).Gives { s with held } (found s (shown m)) { s with held }) :
    (if v.list? = some l then pure "[...]" else holding vs (Eval.inspect v) : Eval String).Gives s
      (found s (s.itemText? l shown v)) s := by
  cases hlist : v.list? with
  | none =>
    obtain ⟨text, hdirect, htext⟩ := s.itemText?_plain l shown hv hlist
    rw [if_neg nofun, htext]
    exact (Eval.inspect_plain (s := { s with held := ⟨vs, none⟩ :: s.held }) hdirect).keeping
  | some m =>
    obtain rfl := Value.list?_eq_some.mp hlist
    by_cases hm : m = l
    · rw [if_pos (congrArg some hm), State.itemText?, if_pos hm]
      exact .pure _ s
    · rw [if_neg (fun heq ↦ hm (Option.some.inj heq)), State.itemText?, if_neg hm]
      exact (h m rfl hm _).keeping

theorem inspectItems_gives (shown : ListId → Option String) {vs : List Value}
    (done : List String) (hplain : ∀ v ∈ vs, v.object? = none)
    (h : ∀ m, .list m ∈ vs → m ≠ l → ∀ held,
      (Eval.inspect (.list m)).Gives { s with held } (found s (shown m)) { s with held }) :
    (inspectItems l done vs).Gives s
      (found s ((vs.mapM (s.itemText? l shown)).map fun texts ↦ done.reverse ++ texts)) s := by
  induction vs generalizing done with
  | nil =>
    rw [List.mapM_nil, Option.pure_def, Option.map_some, List.append_nil]
    exact .pure _ s
  | cons v vs ih =>
    obtain ⟨hv, hvs⟩ := List.forall_mem_cons.mp hplain
    have hitem := inspectItem_gives vs hv fun m hm ↦ h m (hm ▸ List.mem_cons_self)
    rw [inspectItems_cons, List.mapM_cons]
    cases htext : s.itemText? l shown v with
    | none =>
      rw [htext] at hitem
      exact .bind_error hitem
    | some text =>
      rw [htext] at hitem
      have hrest := ih (text :: done) hvs fun m hm ↦ h m (List.mem_cons_of_mem v hm)
      refine .bind hitem ?_
      convert hrest using 1
      cases vs.mapM (s.itemText? l shown) with
      | none => rfl
      | some texts => simp [found]

theorem inspect_gives {text : Option (List String)} (span : Span)
    (h : (inspectItems l [] (s.items l).toList).Gives
      { s with held := ⟨[.list l], none⟩ :: s.held } (found s text)
      { s with held := ⟨[.list l], none⟩ :: s.held }) :
    (Routine.run (.list .inspect) ⟨.list l, [], none, span⟩).Gives s
      (found s (text.map fun texts ↦ .str ("[" ++ ", ".intercalate texts ++ "]"))) s := by
  let asked : State := { s with held := ⟨[.list l], none⟩ :: s.held }
  have hread : (Eval.read (·.items l)).Gives asked (.ok (s.items l)) asked := .read _ asked
  have hruns : (runOn .inspect l ⟨.list l, [], none, span⟩).Gives asked
      (found s (text.map fun texts ↦ .str ("[" ++ ", ".intercalate texts ++ "]"))) asked := by
    cases text with
    | none => exact .bind hread (.bind_error h)
    | some texts => exact .bind hread (.bind h (.pure _ asked))
  have hrun := gives_of_runOn (r := .inspect) (by decide) rfl (fun _ ↦ rfl) rfl hruns
  exact hrun

end ListRoutine

namespace Eval

theorem send_shown_deep (hs : s.types.ListsInstalled)
    (hn : s.config.maxCallDepth ≤ s.frames.size) (a : Audience) (span : Span) :
    (send (.list l) a.message [] none span).Gives s
      (.error (.halt (.depth s.config.maxCallDepth))) s := by
  obtain ⟨m, native, hanswer, hclauses, hsignature, -⟩ :=
    State.answer_of_offers (v := .list l) rfl rfl (hs.offers a) true
  have hsend := Task.Gives.send_deep (c := ⟨.list l, [], none, span⟩) hanswer hclauses
    (by rw [hsignature]; rfl) hn
  exact .perform hsend

theorem send_shown (hs : s.types.ListsInstalled) (hl : s.ShowsItself l)
    (hn : s.config.maxCallDepth - s.frames.size = n) (a : Audience) (span : Span) :
    (send (.list l) a.message [] none span).Gives s (found s ((s.listText? n l).map .str)) s := by
  induction n generalizing s l a span with
  | zero => exact send_shown_deep hs (by omega) a span
  | succ n ih =>
    have hroom : s.frames.size < s.config.maxCallDepth := by omega
    obtain ⟨held, frame, hcall⟩ := Task.CallsFor.offered (c := ⟨.list l, [], none, span⟩)
      (hs.offers a) rfl rfl rfl hroom
    have hsize : (s.frames.push frame).size = s.frames.size + 1 := Array.size_push frame
    have hin (m : ListId) (hitem : .list m ∈ (s.items l).toList) (hm : m ≠ l) (now : List Held) :
        (Eval.inspect (.list m)).Gives { s with held := now, frames := s.frames.push frame }
          (found s (s.listText? n m)) { s with held := now, frames := s.frames.push frame } := by
      let called : State := { s with
        held := ⟨[.list m], none⟩ :: now, frames := s.frames.push frame }
      have hsend := ih (s := called) hs (hl.nests ⟨hitem, hm⟩) (by dsimp only [called]; omega)
        .programs .origin
      rw [s.listText?_called] at hsend
      exact inspect_list hsend
    let called : State := { s with
      held := ⟨[.list l], none⟩ :: held, frames := s.frames.push frame }
    have hitems := ListRoutine.inspectItems_gives (s := called) (s.listText? n) [] (hl l .refl)
      fun m hitem hm now ↦ hin m hitem hm now
    have hruns := ListRoutine.inspect_gives (s := { s with held, frames := s.frames.push frame })
      span hitems
    have hsend := Gives.perform (hcall _ _ hruns)
    rw [Array.pop_push, Option.map_map] at hsend
    rw [State.listText?, Option.map_map]
    cases a <;> exact hsend

end Eval

/-- A list of scalars and lists is shown, with `[...]` for a list that is being shown already, if
no different lists are in each other, as deep as calls may be nested. Else there is no text. -/
theorem lists_shown (hs : s.types.ListsInstalled) (hl : s.ShowsItself l) (a : Audience)
    (span : Span) :
    (s.Layered (s.config.maxCallDepth - s.frames.size) l → ∃ text,
      (send (.list l) a.message [] none span).Gives s (.ok (.str text)) s ∧
        s.Shows [] (.list l) text) ∧
    (¬ s.Layered (s.config.maxCallDepth - s.frames.size) l →
      (send (.list l) a.message [] none span).Gives s
        (.error (.halt (.depth s.config.maxCallDepth))) s) := by
  have hsend := send_shown hs hl rfl a span
  rw [← State.isSome_listText?_iff hl]
  cases htext : s.listText? (s.config.maxCallDepth - s.frames.size) l with
  | none =>
    rw [htext] at hsend
    exact ⟨nofun, fun _ ↦ hsend⟩
  | some text =>
    rw [htext] at hsend
    exact ⟨fun _ ↦ ⟨text, hsend, State.shows_of_listText? htext nofun⟩, fun h ↦ absurd rfl h⟩

def State.withLists (lists : Array (Array Value)) : State := { State.initial .standard with lists }

namespace State

variable {lists : Array (Array Value)}

theorem withLists_reached : (withLists lists).Reached := .host (.initial .standard) rfl

theorem withLists_installed : (withLists lists).types.ListsInstalled := fun a ↦ by
  have hcore : (State.initial .standard).types.AllBuiltIn a.message := by
    cases a <;> decide +kernel
  exact withLists_reached.findsInstalled hcore _

theorem withLists_showsItself
    (h : (lists.all fun items ↦ items.all (·.object?.isNone)) = true) :
    (withLists lists).ShowsItself l := by
  intro m hm v hv
  rw [items] at hv
  cases hitems : (withLists lists).lists[m.index]? with
  | none =>
    rw [hitems] at hv
    cases hv
  | some items =>
    rw [hitems] at hv
    have hall := Array.all_eq_true'.mp h items (Array.mem_of_getElem? hitems)
    exact Option.isNone_iff_eq_none.mp (Array.all_eq_true'.mp hall v (Array.mem_def.mpr hv))

end State

/-- The list `l` with the items `l` and `[1]`. -/
theorem own_item_shown :
    let s := State.withLists #[#[.list ⟨0⟩, .list ⟨1⟩], #[.int 1]]
    s.types.ListsInstalled ∧ s.ShowsItself ⟨0⟩ ∧
      s.Layered (s.config.maxCallDepth - s.frames.size) ⟨0⟩ ∧ ∃ text,
        (send (.list ⟨0⟩) "inspect" [] none .origin).Gives s (.ok (.str text)) s ∧
          s.Shows [] (.list ⟨0⟩) text := by
  intro s
  have hshows : s.ShowsItself ⟨0⟩ := State.withLists_showsItself (by decide +kernel)
  have hlayered : s.Layered (s.config.maxCallDepth - s.frames.size) ⟨0⟩ :=
    (State.isSome_listText?_iff hshows).mp (by decide +kernel)
  exact ⟨State.withLists_installed, hshows, hlayered,
    (lists_shown State.withLists_installed hshows .programs .origin).1 hlayered⟩

/-- Two lists that are the only item of each other have no text. -/
theorem linked_lists_not_shown : ¬ ∀ (s : State) (l : ListId) (a : Audience) (span : Span),
    s.Reached → s.types.ListsInstalled → s.ShowsItself l →
      (∀ path, (l :: path).IsChain s.HasItem → (l :: path).Nodup →
        (l :: path).length < s.config.maxCallDepth - s.frames.size) →
      ∃ text s', (send (.list l) a.message [] none span).Gives s (.ok (.str text)) s' := by
  intro h
  let s := State.withLists #[#[.list ⟨1⟩], #[.list ⟨0⟩]]
  have hshows : s.ShowsItself ⟨0⟩ := State.withLists_showsItself (by decide +kernel)
  obtain ⟨text, s', htext⟩ := h s ⟨0⟩ .programs .origin State.withLists_reached
    State.withLists_installed hshows fun path hpath hnodup ↦ by
      have hlength : path.length ≤ 2 := State.length_le_of_nodup hpath hnodup
      have hroom : s.config.maxCallDepth - s.frames.size = 10000 := rfl
      rw [List.length_cons]
      omega
  have hthere : s.Nests ⟨0⟩ ⟨1⟩ := ⟨List.mem_singleton_self _, by decide⟩
  have hback : s.Nests ⟨1⟩ ⟨0⟩ := ⟨List.mem_singleton_self _, by decide⟩
  have hentangled : s.Entangled ⟨0⟩ := ⟨⟨0⟩, .refl, .head hthere (.single hback)⟩
  have hsend := send_shown State.withLists_installed hshows rfl .programs .origin
  rw [hentangled.listText?] at hsend
  cases (htext.unique hsend).1

end Quill
