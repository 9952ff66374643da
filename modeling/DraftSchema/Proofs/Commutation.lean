import DraftSchema.Proofs.Alike
import DraftSchema.Proofs.Placement
import DraftSchema.Proofs.Pointing
import DraftSchema.Proofs.TreeGrowth
import DraftSchema.Proofs.Uniform

/-!
# Calls in two orders

Two calls whose paths part do not get in each other's way: one of them succeeds exactly when it
succeeds after the other one, and the documents after both are alike in either order. This is seen
in the tree of the builder, which a call changes by growth along its path.
-/

namespace DraftSchema

namespace Builder

open Build Store

/-- A call: a selector and a value, and the path and the rule that they stand for. -/
structure Request where
  selector : Value
  value : Value
  path : List String
  content : Node

namespace Request

/-- The path as a list of names. -/
def names (a : Request) : List Value := a.path.map .text

/-- Makes the call on a builder. -/
def run (a : Request) (call : Caller) (id : NodeId) : Build Unit := add call id a.selector a.value

/-- Whether the call succeeds. -/
def Succeeds (a : Request) (call : Caller) (id : NodeId) (w : Workspace) : Prop :=
  ∃ w', a.run call id w = .ok () w'

/-- The workspace after the call. -/
def after (a : Request) (call : Caller) (id : NodeId) (w : Workspace) : Workspace :=
  (a.run call id).after w

/-- In a workspace a call stands for its path and for a rule of its content, which has nothing in
common with the builder; `w₁` is the workspace in which this is known. -/
structure Ready (a : Request) (call : Caller) (id : NodeId) (w w₁ : Workspace) (node : NodeId) :
    Prop where
  resolved : resolve call a.selector a.value w = .ok (a.names, node) w₁
  /-- The functions among selector and value leave the rules alone that are there. -/
  kept : w₁.store.Extends w.store
  content : w₁.store.get? node = some a.content
  acyclic : w₁.store.Acyclic node
  /-- The rule refers to none but rules that were there. -/
  known : ∀ x, w₁.store.Reaches node x → x = node ∨ x < w.store.size
  apart : w₁.store.Apart id node
  /-- The model of the builder declares the path. -/
  declared : checkModel call id a.names w₁ = .ok () w₁

/-- The rule of a call can be asked whether it is required, and if it is, nothing in a tree keeps the
names of the path from being looked for among the required ones. -/
def Listed (a : Request) (t : Tree) : Prop :=
  ∃ b, a.content.required.truth = .ok b ∧ (b = true → t.listable a.names = true)

/-- A tree takes the rule of a call under its path. -/
def Fits (a : Request) (t : Tree) : Prop := t.passes a.names = true ∧ a.Listed t

variable {a b : Request} {call : Caller} {id m n : NodeId} {w w₁ w₂ w' : Workspace}

theorem isHashable_of_mem_names : ∀ name ∈ a.names, name.isHashable = true := by
  intro name h
  obtain ⟨text, -, rfl⟩ := List.mem_map.mp h
  rfl

theorem nodes_of_mem_names : ∀ name ∈ a.names, name.nodes = [] := by
  intro name h
  obtain ⟨text, -, rfl⟩ := List.mem_map.mp h
  rfl

theorem Ready.whole (h : a.Ready call id w w₁ m) : w₁.store.Whole m where
  acyclic := h.acyclic
  inside x hx := by
    rcases h.known x hx with rfl | hx
    · exact lt_size_of_get? h.content
    · exact hx.trans_le h.kept.size

theorem Ready.requirement (h : a.Ready call id w w₁ m) :
    w₁.store.requirement m = a.content.required := by
  rw [Store.requirement, h.content]

theorem isBuilder_congr {s t : Store} (h : s.object? id = t.object? id) :
    isBuilder s id = isBuilder t id := by
  rw [isBuilder, isBuilder, h]

/-- A call is ready when its value is made into a rule that refers to no other. -/
theorem ready_of_made (hres : resolve call a.selector a.value w = .ok (a.names, m) w₁)
    (hkept : w₁.store.Extends w.store) (hcontent : w₁.store.get? m = some a.content)
    (hnew : w.store.size ≤ m) (hrefs : a.content.rule.references = []) (hid : w.store.Whole id)
    (hdeclared : checkModel call id a.names w₁ = .ok () w₁) : a.Ready call id w w₁ m := by
  have hm : w₁.store.references m = [] := by rw [references_of_get? hcontent, hrefs]
  have honly : ∀ x, w₁.store.Reaches m x → x = m := by
    intro x hx
    cases hx with
    | refl => rfl
    | step hc =>
      rw [hm] at hc
      cases hc
  refine ⟨hres, hkept, hcontent, ?_, fun x hx => .inl (honly x hx), ?_, hdeclared⟩
  · exact (isTree_of_references_eq_nil hm (lt_size_of_get? hcontent)).acyclic
  · intro x hidx hmx
    rw [honly x hmx] at hidx
    exact absurd (hid.inside m ((hid.agree hkept).symm.reaches hidx)) (Nat.not_lt.mpr hnew)

/-! ### One call -/

section One

variable (h : a.Ready call id w w₁ m) (hp : a.path ≠ []) (hbuilder : isBuilder w.store id = true)
  (hid : w.store.Whole id)

include hp in
theorem names_ne_nil : a.names ≠ [] := by simpa [names] using hp

include h hbuilder hid in
theorem Ready.builder : isBuilder w₁.store id = true := by
  rw [← hbuilder]
  exact isBuilder_congr (by rw [object?, object?, (hid.agree h.kept).self])

include h hid in
theorem Ready.tree_eq : w₁.store.tree id = w.store.tree id :=
  (tree_congr hid.acyclic (hid.agree h.kept)).symm

include h hp hbuilder hid in
theorem Ready.passes_iff :
    w₁.store.Passes id a.names ↔ (w.store.tree id).passes a.names = true := by
  obtain ⟨r, hr, -⟩ := object?_of_isBuilder (h.builder hbuilder hid)
  rw [← h.tree_eq hid]
  exact passes_iff_tree (hid.extends h.kept).acyclic hr (names_ne_nil hp) isHashable_of_mem_names

include h hbuilder hid in
/-- A free path takes the rule exactly when the rule can be listed, and then the rules have grown
along the path. -/
theorem Ready.put_eq_ok_iff (hpass : w₁.store.Passes id a.names) {s : Store} :
    w₁.store.put id a.names (w₁.store.requirement m) (.node m) = (s, .ok ()) ↔
      ∃ b, a.content.required.truth = .ok b ∧
        (b = true → (w.store.tree id).listable a.names = true) ∧
        s = w₁.store.grow b (.node m) id a.names := by
  obtain ⟨r, hr, -⟩ := object?_of_isBuilder (h.builder hbuilder hid)
  rw [Store.put_eq_ok_iff hpass isHashable_of_mem_names hr, h.requirement, ← h.tree_eq hid,
    listable_tree a.names (hid.extends h.kept).acyclic]

include h in
/-- Once the rule is put it is shown as before. -/
theorem Ready.nodeText_grows {f : Bool} {s : Store}
    (hgrows : Grows f (.node m) w₁.store id a.names s) : s.nodeText m = w₁.store.nodeText m :=
  (nodeText_congr h.acyclic (hgrows.agree h.whole.inside fun x hx =>
    h.apart x (reaches_of_mem_walk hx))).symm

include h hp hbuilder hid in
/-- A call with a path succeeds exactly when the builder's tree takes its rule and the rule can be
shown. -/
theorem Ready.succeeds_iff :
    a.Succeeds call id w ↔
      a.Fits (w.store.tree id) ∧ ∃ shown, w₁.store.nodeText m = .ok shown := by
  have hne := names_ne_nil hp
  have hpasses := h.passes_iff hp hbuilder hid
  have hgrown : ∀ {b}, w₁.store.Passes id a.names →
      Grows b (.node m) w₁.store id a.names (w₁.store.grow b (.node m) id a.names) := fun hpass =>
    have ⟨_, hr, _⟩ := object?_of_isBuilder (h.builder hbuilder hid)
    grows_grow _ _ hpass isHashable_of_mem_names hr
  have hrun : ∀ {w'}, a.run call id w = .ok () w' ↔ _ := add_path_eq_ok h.resolved hne
  constructor
  · -- before the rule was put nothing was in the way
    rintro ⟨w', hok⟩
    obtain ⟨s, shown, pointer, -, hclear, hput, htext, -, -⟩ := hrun.mp hok
    have hpass := (conflict?_eq_none_iff hne).mp hclear
    obtain ⟨b, hb, hlist, rfl⟩ := (h.put_eq_ok_iff hbuilder hid hpass).mp hput
    rw [h.nodeText_grows (hgrown hpass)] at htext
    exact ⟨⟨hpasses.mp hpass, b, hb, hlist⟩, _, htext⟩
  · rintro ⟨⟨hpass, b, hb, hlist⟩, shown, htext⟩
    have hpass := hpasses.mpr hpass
    rw [← h.nodeText_grows (hgrown (b := b) hpass)] at htext
    exact ⟨_, hrun.mpr ⟨_, shown, _, h.declared, (conflict?_eq_none_iff hne).mpr hpass,
      (h.put_eq_ok_iff hbuilder hid hpass).mpr ⟨b, hb, hlist, rfl⟩, htext, pointer_texts _ _, rfl⟩⟩

include h hp hbuilder hid in
theorem Ready.grows_of_succeeds (hs : a.Succeeds call id w) :
    ∃ f, a.content.required.truth = .ok f ∧
      Grows f (.node m) w₁.store id a.names (a.after call id w).store := by
  obtain ⟨w', hrun⟩ := hs
  obtain ⟨f, hf, hgrows⟩ :=
    grows_of_add (names_ne_nil hp) h.resolved (h.builder hbuilder hid) hrun
  rw [h.requirement] at hf
  rw [after, after_of_ok hrun]
  exact ⟨f, hf, hgrows⟩

include h hp hbuilder hid in
/-- Whether or not a call succeeds, after it the rules are as they were, or they have grown along a
free path. -/
theorem Ready.grows_after (hlisted : a.Listed (w.store.tree id)) :
    (a.after call id w).store = w₁.store ∨
      (w.store.tree id).passes a.names = true ∧ ∃ f, a.content.required.truth = .ok f ∧
        Grows f (.node m) w₁.store id a.names (a.after call id w).store := by
  have hne := names_ne_nil hp
  -- a rule that can be listed is not stuck on the way
  have hput : w₁.store.conflict? id [] a.names = none → ∀ {s placed},
      w₁.store.put id a.names (w₁.store.requirement m) (.node m) = (s, placed) →
      placed = .ok () ∧ (w.store.tree id).passes a.names = true ∧
        ∃ f, a.content.required.truth = .ok f ∧ Grows f (.node m) w₁.store id a.names s := by
    intro hclear s placed hput
    have hpass := (conflict?_eq_none_iff hne).mp hclear
    obtain ⟨f, hf, hlist⟩ := hlisted
    obtain ⟨r, hr, -⟩ := object?_of_isBuilder (h.builder hbuilder hid)
    cases hput.symm.trans ((h.put_eq_ok_iff hbuilder hid hpass).mpr ⟨f, hf, hlist, rfl⟩)
    exact ⟨rfl, (h.passes_iff hp hbuilder hid).mp hpass, f, hf,
      grows_grow f _ hpass isHashable_of_mem_names hr⟩
  have hsettled : Settled call id a.names m w₁ (a.run call id w) := add_settled h.resolved
  unfold after Build.after
  generalize a.run call id w = result at hsettled
  cases hsettled with
  | unshown | undeclared | conflict => exact .inl rfl
  | additional hempty => exact absurd hempty hne
  | stuck _ _ hclear hstuck => cases (hput hclear hstuck).1
  | unreported _ _ hclear hplaced => exact .inr (hput hclear hplaced).2
  | put _ _ hclear hplaced => exact .inr (hput hclear hplaced).2

include h hbuilder hid in
/-- What growth along the path of a call makes of a builder: its tree has grown, and the ways along
other paths are still clear. -/
theorem Ready.tree_of_grows {f : Bool} {s : Store} (hclear : w.store.Clear id a.names)
    (hgrows : Grows f (.node m) w₁.store id a.names s) :
    isBuilder s id = true ∧ s.Whole id ∧
      s.tree id = (w.store.tree id).grow f (w₁.store.tree m) a.names ∧
      ∀ q, Part a.names q → w.store.Clear id q → s.Clear id q := by
  have hagree := hid.agree h.kept
  have hid₁ := hid.extends h.kept
  have hclear₁ := hclear.congr hagree
  obtain ⟨hacyclic, htree⟩ := hgrows.tree nodes_of_mem_names hid₁ hclear₁ h.whole h.apart
  refine ⟨?_, hgrows.whole nodes_of_mem_names hid₁ h.whole hacyclic, ?_, ?_⟩
  · obtain ⟨r, hr, hkind⟩ := object?_of_isBuilder (h.builder hbuilder hid)
    obtain ⟨r', hr', hframe⟩ := hgrows.object? hr
    rw [isBuilder, hr']
    simpa [hframe.kind] using hkind
  · rw [htree, h.tree_eq hid]
  · intro q hq hclear'
    exact (hgrows.clear nodes_of_mem_names hid₁ hclear₁ h.whole h.apart hq (hclear'.congr hagree)).1

include h hp hbuilder hid in
/-- A call leaves alone the rules that are not below the builder. -/
theorem Ready.get?_after (hlisted : a.Listed (w.store.tree id)) {x : NodeId}
    (hx : x < w.store.size) (hbelow : ¬ w.store.Reaches id x) :
    (a.after call id w).store.get? x = w.store.get? x ∧
      x < (a.after call id w).store.size := by
  have hx₁ := hx.trans_le h.kept.size
  rw [← h.kept.same x hx]
  rcases h.grows_after hp hbuilder hid hlisted with hsame | ⟨-, f, -, hgrows⟩
  · rw [hsame]
    exact ⟨rfl, hx₁⟩
  · refine ⟨hgrows.get?_of_not_mem_walk hx₁ fun hwalk => hbelow ?_, hx₁.trans_le hgrows.size_le⟩
    exact (hid.agree h.kept).symm.reaches (reaches_of_mem_walk hwalk)

end One

/-! ### Two calls -/

/-- Before and after another call, the rule of a call gives the same reading. -/
theorem Ready.read_eq {β : Type} (R : Reading β) {w₃ : Workspace} {m' : NodeId}
    (ha : a.Ready call id w w₁ m) (hb : b.Ready call id w w₂ n)
    (ha' : a.Ready call id (b.after call id w) w₃ m') (hp : b.path ≠ [])
    (hbuilder : isBuilder w.store id = true) (hid : w.store.Whole id)
    (hlisted : b.Listed (w.store.tree id)) : R.read w₃.store m' = R.read w₁.store m := by
  refine (R.read_same ha.content ha'.content ha.acyclic ha'.acyclic fun c hc x hx => ?_).symm
  have hmem : c ∈ w₁.store.references m := by
    rw [references_of_get? ha.content]
    exact hc
  -- what the rule refers to was there before both calls, and is not below the builder
  have hne : x ≠ m := by
    rintro rfl
    exact ha.acyclic.not_reaches hmem hx
  have hlt := (ha.known x (.step hmem hx)).resolve_left hne
  have hbelow : ¬ w.store.Reaches id x := fun hidx =>
    ha.apart x ((hid.agree ha.kept).reaches hidx) (.step hmem hx)
  obtain ⟨hsame, hlt'⟩ := hb.get?_after hp hbuilder hid hlisted hlt hbelow
  rw [ha.kept.same x hlt, ha'.kept.same x hlt', hsame]

/-- Whether a tree takes the rule of a call does not change when it grows along a path that parts
from the call's. -/
theorem fits_grow {f : Bool} {M t : Tree} (h : Part b.names a.names) :
    a.Fits (t.grow f M b.names) ↔ a.Fits t := by
  have hoperand : ∀ name ∈ b.names, name.isOperand = false := fun name hname =>
    isOperand_of_isHashable (isHashable_of_mem_names name hname)
  rw [Fits, Fits, Listed, Listed, Tree.passes_grow h, Tree.listable_grow h hoperand]

/-- On a builder that is a tree, the way of a call that succeeds is clear. -/
theorem Fits.clear (h : a.Fits (w.store.tree id)) (hp : a.path ≠ [])
    (hbuilder : isBuilder w.store id = true) (htree : w.store.IsTree id) :
    w.store.Clear id a.names := by
  obtain ⟨r, hr, -⟩ := object?_of_isBuilder hbuilder
  exact htree.clear ((passes_iff_tree htree.acyclic hr (by simpa [names] using hp)
    isHashable_of_mem_names).mpr h.1)

/-- Paths of which neither leads on from the other part. -/
theorem part_names {p q : List String} (hpq : ¬ p <+: q) (hqp : ¬ q <+: p) :
    Part (p.map .text) (q.map .text) := by
  induction p generalizing q with
  | nil => exact absurd (List.nil_prefix) hpq
  | cons a p ih =>
    cases q with
    | nil => exact absurd (List.nil_prefix) hqp
    | cons b q =>
      by_cases hab : a = b
      · subst hab
        rw [List.cons_prefix_cons, not_and] at hpq hqp
        exact .later BEq.rfl (ih (hpq rfl) (hqp rfl))
      · exact .here (by simp [Value.text_beq_text, hab])

variable {w₃ : Workspace} {m' n' : NodeId}

/-- After a call, whether or not it succeeds, the builder is still a whole one, and its tree is as it
was or has grown along the path. -/
theorem Ready.tree_after (hb : b.Ready call id w w₂ n) (hp : b.path ≠ [])
    (hbuilder : isBuilder w.store id = true) (htree : w.store.IsTree id)
    (hlisted : b.Listed (w.store.tree id)) :
    isBuilder (b.after call id w).store id = true ∧ (b.after call id w).store.Whole id ∧
      ((b.after call id w).store.tree id = w.store.tree id ∨
        ∃ f, (b.after call id w).store.tree id
          = (w.store.tree id).grow f (w₂.store.tree n) b.names) := by
  have hid := htree.toWhole
  rcases hb.grows_after hp hbuilder hid hlisted with hsame | ⟨hpass, f, -, hgrows⟩
  · rw [hsame]
    exact ⟨hb.builder hbuilder hid, hid.extends hb.kept, .inl (hb.tree_eq hid)⟩
  · have hclear := Fits.clear ⟨hpass, hlisted⟩ hp hbuilder htree
    obtain ⟨hbuilder', hid', hgrown, -⟩ := hb.tree_of_grows hbuilder hid hclear hgrows
    exact ⟨hbuilder', hid', .inr ⟨f, hgrown⟩⟩

/-- A call succeeds exactly when it succeeds after another one whose path parts from its own. -/
theorem Ready.succeeds_after_iff (ha : a.Ready call id w w₁ m) (hb : b.Ready call id w w₂ n)
    (ha' : a.Ready call id (b.after call id w) w₃ m') (hpart : Part b.names a.names)
    (hbuilder : isBuilder w.store id = true) (htree : w.store.IsTree id)
    (hlisted : b.Listed (w.store.tree id)) :
    a.Succeeds call id w ↔ a.Succeeds call id (b.after call id w) := by
  have hpa : a.path ≠ [] := by simpa [names] using hpart.ne_nil.2
  have hpb : b.path ≠ [] := by simpa [names] using hpart.ne_nil.1
  have hid := htree.toWhole
  obtain ⟨hbuilder', hid', hafter⟩ := hb.tree_after hpb hbuilder htree hlisted
  have hfits : a.Fits ((b.after call id w).store.tree id) ↔ a.Fits (w.store.tree id) := by
    rcases hafter with hsame | ⟨f, hgrown⟩
    · rw [hsame]
    · rw [hgrown]
      exact fits_grow hpart
  have htext : w₃.store.nodeText m' = w₁.store.nodeText m := by
    rw [nodeText_eq, nodeText_eq, ha.read_eq textReading hb ha' hpb hbuilder hid hlisted]
  rw [ha.succeeds_iff hpa hbuilder hid, ha'.succeeds_iff hpa hbuilder' hid', hfits, htext]

/-- The tree of the builder after two calls whose paths part. -/
theorem Ready.tree_of_both (ha : a.Ready call id w w₁ m) (hb : b.Ready call id w w₂ n)
    (hb' : b.Ready call id (a.after call id w) w₃ n') (hpart : Part a.names b.names)
    (hbuilder : isBuilder w.store id = true) (htree : w.store.IsTree id)
    (hasucceeds : a.Succeeds call id w) (hbsucceeds : b.Succeeds call id w) :
    ∃ f g, a.content.required.truth = .ok f ∧ b.content.required.truth = .ok g ∧
      (b.after call id (a.after call id w)).store.tree id
        = ((w.store.tree id).grow f (w₁.store.tree m) a.names).grow g (w₂.store.tree n) b.names := by
  have hpa : a.path ≠ [] := by simpa [names] using hpart.ne_nil.1
  have hpb : b.path ≠ [] := by simpa [names] using hpart.ne_nil.2
  have hid := htree.toWhole
  have hafits := ((ha.succeeds_iff hpa hbuilder hid).mp hasucceeds).1
  have hbfits := ((hb.succeeds_iff hpb hbuilder hid).mp hbsucceeds).1
  -- the first call
  obtain ⟨f, hf, hgrows⟩ := ha.grows_of_succeeds hpa hbuilder hid hasucceeds
  obtain ⟨hbuilder', hid', hgrown, hways⟩ :=
    ha.tree_of_grows hbuilder hid (hafits.clear hpa hbuilder htree) hgrows
  -- the second call, the way of which is still clear
  have hbafter := (hb.succeeds_after_iff ha hb' hpart hbuilder htree hafits.2).mp hbsucceeds
  have hclear := hways b.names hpart (hbfits.clear hpb hbuilder htree)
  obtain ⟨g, hg, hgrows'⟩ := hb'.grows_of_succeeds hpb hbuilder' hid' hbafter
  obtain ⟨-, -, hgrown', -⟩ := hb'.tree_of_grows hbuilder' hid' hclear hgrows'
  have hsame := hb.read_eq treeReading ha hb' hpa hbuilder hid hafits.2
  refine ⟨f, g, hf, hg, ?_⟩
  rw [hgrown', hgrown, Store.tree, Store.tree, Store.tree, Store.tree, hsame]

/-- A call of which selector and value stand for the same everywhere, and that is ready, is ready
after another one, if the model still declares its path and what it is given has nothing in common
with the rule of the other. -/
theorem Ready.ready_after (ha : a.Ready call id w w₁ m) (hb : b.Ready call id w w₂ n)
    (hs : (Selector.path call a.selector).Uniform)
    (hv : (Construction.ruleOf call .pattern a.value).Uniform) (hp : b.path ≠ [])
    (hbuilder : isBuilder w.store id = true) (htree : w.store.IsTree id)
    (hlisted : b.Listed (w.store.tree id)) (hother : m < w.store.size → w₂.store.Apart m n)
    (hdeclared : ∀ w₃ m', resolve call a.selector a.value (b.after call id w) = .ok (a.names, m') w₃ →
      checkModel call id a.names w₃ = .ok () w₃) :
    ∃ w₃ m', a.Ready call id (b.after call id w) w₃ m' := by
  have hid := htree.toWhole
  rcases resolve_again hs hv ha.resolved with hagain | ⟨rule, hrefs, hagain⟩
  · -- the rule is given, and the other call has left alone all that is below it
    obtain ⟨next, hnow⟩ := hagain w
    obtain ⟨next', hlater⟩ := hagain (b.after call id w)
    cases ha.resolved.symm.trans hnow
    have hbelow : ∀ x, w.store.Reaches m x → x < w.store.size := fun x hx => by
      rcases ha.known x hx with rfl | hx
      · exact lt_size_of_get? ha.content
      · exact hx
    have hkept : ∀ x, w.store.Reaches m x →
        (b.after call id w).store.get? x = w.store.get? x ∧
          x < (b.after call id w).store.size := fun x hx =>
      hb.get?_after hp hbuilder hid hlisted (hbelow x hx) fun hidx => ha.apart x hidx hx
    have hagree : w.store.Agree (b.after call id w).store m := fun x hx => (hkept x hx).1.symm
    refine ⟨_, m, hlater, .refl _, ?_, hagree.acyclic ha.acyclic, fun x hx => ?_, ?_,
      hdeclared _ _ hlater⟩
    · rw [← hagree.self, ha.content]
    · exact .inr (hkept x (hagree.symm.reaches hx)).2
    · intro x hidx hmx
      have hmx := hagree.symm.reaches hmx
      have hsame := hid.agree hb.kept
      have happart : ¬ w₂.store.Reaches id x := fun hidx => ha.apart x (hsame.symm.reaches hidx) hmx
      have hx := hbelow x hmx
      -- below the builder there is what was, what is below the other rule, and what is new
      rcases hb.grows_after hp hbuilder hid hlisted with heq | ⟨-, f, -, hgrows⟩
      · rw [heq] at hidx
        exact happart hidx
      · rcases hgrows.reaches nodes_of_mem_names hidx with hidx | hnx | ⟨hnew, -⟩
        · exact happart hidx
        · have hm₂ : w.store.Agree w₂.store m := fun y hy => (hb.kept.same y (hbelow y hy)).symm
          exact hother (lt_size_of_get? ha.content) x (hm₂.reaches hmx) hnx
        · exact absurd (hx.trans_le hb.kept.size) (Nat.not_lt.mpr hnew)
  · -- the rule is made anew
    obtain ⟨next, hnow⟩ := hagain w
    obtain ⟨next', hlater⟩ := hagain (b.after call id w)
    cases ha.resolved.symm.trans hnow
    have hcontent : a.content = ⟨rule, .bool true⟩ :=
      Option.some.inj (ha.content.symm.trans (get?_alloc_self w.store ⟨rule, .bool true⟩))
    refine ⟨_, _, ready_of_made hlater (extends_alloc _ _) ?_ (Nat.le_refl _) ?_
      (hb.tree_after hp hbuilder htree hlisted).2.1 (hdeclared _ _ hlater)⟩
    · rw [hcontent]
      exact get?_alloc_self _ _
    · rw [hcontent, hrefs]

end Request

open Request in
/-- Calls whose paths part commute. Whichever of the two comes first, and whether or not it succeeds,
the other one succeeds as it would have without it; and if both succeed, the documents of the two
orders are alike. -/
theorem add_commutes {a b : Request} {call : Caller} {id m n m' n' : NodeId}
    {w wa wb wa' wb' : Workspace} (hab : ¬ a.path <+: b.path) (hba : ¬ b.path <+: a.path)
    (hbuilder : isBuilder w.store id = true) (htree : w.store.IsTree id)
    (hla : a.Listed (w.store.tree id)) (hlb : b.Listed (w.store.tree id))
    (ha : a.Ready call id w wa m) (hb : b.Ready call id w wb n)
    (ha' : a.Ready call id (b.after call id w) wa' m')
    (hb' : b.Ready call id (a.after call id w) wb' n') :
    (a.Succeeds call id w ↔ a.Succeeds call id (b.after call id w)) ∧
    (b.Succeeds call id w ↔ b.Succeeds call id (a.after call id w)) ∧
    (a.Succeeds call id w → b.Succeeds call id w →
      (∀ d, (b.after call id (a.after call id w)).store.document id = .ok d →
        ∃ d', (a.after call id (b.after call id w)).store.document id = .ok d' ∧ Alike d d') ∧
      (∀ d, (a.after call id (b.after call id w)).store.document id = .ok d →
        ∃ d', (b.after call id (a.after call id w)).store.document id = .ok d' ∧ Alike d d')) := by
  have hpart : Part a.names b.names := part_names hab hba
  refine ⟨ha.succeeds_after_iff hb ha' hpart.symm hbuilder htree hlb,
    hb.succeeds_after_iff ha hb' hpart hbuilder htree hla, fun hasucceeds hbsucceeds => ?_⟩
  obtain ⟨f, g, hf, hg, hfirst⟩ :=
    ha.tree_of_both hb hb' hpart hbuilder htree hasucceeds hbsucceeds
  obtain ⟨g', f', hg', hf', hsecond⟩ :=
    hb.tree_of_both ha ha' hpart.symm hbuilder htree hbsucceeds hasucceeds
  cases hf.symm.trans hf'
  cases hg.symm.trans hg'
  -- names that are the same key are the same name, whichever call lists it first
  have hsame : ∀ x ∈ a.names, ∀ y ∈ b.names, (x == y) = true → x = y := by
    intro x hx y hy hxy
    obtain ⟨s, -, rfl⟩ := List.mem_map.mp hx
    obtain ⟨t, -, rfl⟩ := List.mem_map.mp hy
    rw [Value.text_beq_text, decide_eq_true_iff] at hxy
    rw [hxy]
  simp only [← document_tree, hfirst, hsecond]
  exact ⟨fun d hd => Tree.document_grow_comm hpart hsame hd,
    fun d hd => Tree.document_grow_comm hpart.symm
      (fun x hx y hy hxy => (hsame y hy x hx (BEq.symm hxy)).symm) hd⟩

/-- A call for the path `m.a.x`, with the predicate `x >= 10`. -/
def forX : Request :=
  { selector := .function 0 (Accessor.chain [.attr "a", .attr "x"])
    value := .function 1 (.compare .ge .arg (.const (.int 10)))
    path := ["a", "x"]
    content := ⟨.number { NumberRule.any with minimum := some (.int 10) }, .bool true⟩ }

/-- A call for the truth value `y` of the object `a`. -/
def forY : Request :=
  { selector := .list 0 [.text "a", .text "y"], value := .bool false, path := ["a", "y"]
    content := ⟨.boolean (some [.bool false]), .bool true⟩ }

/-- Whichever of the two calls comes first makes the object `a`, and the documents are alike. -/
theorem add_commutes_beside :
    ∃ d d', (forY.after Build.call 0 (forX.after Build.call 0 alone)).store.document 0 = .ok d ∧
      (forX.after Build.call 0 (forY.after Build.call 0 alone)).store.document 0 = .ok d' ∧
      Alike d d' := by
  have htree : alone.store.IsTree 0 := isTree_of_references_eq_nil rfl (by decide)
  have hfirst : forX.Ready Build.call 0 alone _ 1 := Request.ready_of_made rfl (extends_alloc _ _)
    rfl (by decide) rfl htree.toWhole rfl
  have hsecond : forY.Ready Build.call 0 alone _ 1 := Request.ready_of_made rfl (extends_alloc _ _)
    rfl (by decide) rfl htree.toWhole rfl
  have hx : forX.Listed (alone.store.tree 0) := ⟨true, rfl, fun _ => rfl⟩
  have hy : forY.Listed (alone.store.tree 0) := ⟨true, rfl, fun _ => rfl⟩
  have hchain : (Selector.path Build.call forX.selector).Uniform :=
    (Spells.function 0 rfl (by decide +kernel)).uniform
  have hfloor : (Construction.ruleOf Build.call .pattern forX.value).Uniform :=
    Construction.uniform_ruleOf_of_spelling rfl rfl List.mem_cons_self 1
  obtain ⟨_, _, hfirst'⟩ := hfirst.ready_after hsecond hchain hfloor (by decide) rfl htree hy
    (fun h => absurd h (by decide)) (fun w₃ m' h => by cases h; rfl)
  obtain ⟨_, _, hsecond'⟩ := hsecond.ready_after hfirst (Selector.uniform_path rfl)
    (Construction.uniform_ruleOf_of_not_callable rfl) (by decide) rfl htree hx
    (fun h => absurd h (by decide)) (fun w₃ m' h => by cases h; rfl)
  have hboth := (add_commutes (by decide) (by decide) rfl htree hx hy hfirst hsecond hfirst'
    hsecond').2.2 ⟨_, rfl⟩ ⟨_, rfl⟩
  obtain ⟨d, hd⟩ : ∃ d, (forY.after Build.call 0 (forX.after Build.call 0 alone)).store.document 0
      = .ok d := ⟨_, rfl⟩
  obtain ⟨d', hd', halike⟩ := hboth.1 d hd
  exact ⟨d, d', hd, hd', halike⟩

/-- A selector that stands for the path `x` as long as the builder in the variable has no property
`k`. -/
def watchful : Value :=
  .function 0 (.cond
    (.member (.const (.text "k")) (.attr (.const (.ref "b")) "properties"))
    (.const .null)
    (.attr .arg "x"))

/-- A selector may look at the builder, and so a call may fail because another one came first. -/
theorem add_commutes_fails :
    (∃ w₁, resolve Build.call watchful (.bool true) alone = .ok ([.text "x"], 1) w₁) ∧
    (∃ w', add Build.call 0 watchful (.bool true) alone = .ok () w') ∧
    ∃ w₂, add Build.call 0 (.list 0 [.text "k"]) (.bool true) alone = .ok () w₂ ∧
      ∃ f w', add Build.call 0 watchful (.bool true) w₂ = .error f w' :=
  ⟨⟨_, rfl⟩, ⟨_, rfl⟩, _, rfl, _, _, rfl⟩

end Builder

end DraftSchema
