import PlanFeedback.Proofs.Indexes

/-!
The join order of a plan as a forest: a scan with a method is a leaf, a join a group, and every other
node stands for its inputs. The text of the directive is the forest written out, and tells it as long
as names hold neither spaces nor parentheses.
-/
namespace PlanFeedback.Advice

open Plan (BadIndex Kind Names ScanKind)

/-- A part of a join order. -/
inductive JoinTree (α : Type) where
  | leaf (a : α)
  | group (inputs : List (JoinTree α))

namespace JoinTree

variable {α β ε : Type}

mutual

/-- The tree with other leaves; the first error wins. -/
def traverse (f : α → Except ε β) : JoinTree α → Except ε (JoinTree β)
  | .leaf a => (f a).map .leaf
  | .group inputs => (traverseAll f inputs).map .group

def traverseAll (f : α → Except ε β) : List (JoinTree α) → Except ε (List (JoinTree β))
  | [] => .ok []
  | t :: ts => do return (← traverse f t) :: (← traverseAll f ts)

end

mutual

/-- The leaves from left to right, each with the number of groups around it. -/
def leavesAt (depth : Nat) : JoinTree α → List (α × Nat)
  | .leaf a => [(a, depth)]
  | .group inputs => leavesOf (depth + 1) inputs

def leavesOf (depth : Nat) : List (JoinTree α) → List (α × Nat)
  | [] => []
  | t :: ts => leavesAt depth t ++ leavesOf depth ts

end

mutual

/-- A space behind each leaf, and parentheses around each group. -/
def text : JoinTree String → String
  | .leaf name => name ++ " "
  | .group inputs => "(" ++ textOf inputs ++ ")"

def textOf : List (JoinTree String) → String
  | [] => ""
  | t :: ts => text t ++ textOf ts

end

end JoinTree

/-- The relation of a scan that the join order names. -/
def leafOf? : Kind → Option Nat
  | .scan .seq relation => some relation
  | .scan .cte relation => some relation
  | .scan .bitmapHeap relation => some relation
  | .scan .function relation => some relation
  | .scan .index relation => some relation
  | .scan .indexOnly relation => some relation
  | _ => none

mutual

/-- The forest of a plan along outer and inner inputs, with the relations at its leaves. -/
def forest : Plan → List (JoinTree Nat)
  | ⟨kind, _, _, outer?, inner?, _, _, _⟩ =>
    match leafOf? kind, kind with
    | some relation, _ => [.leaf relation]
    | none, .join _ => [.group (forestOption outer? ++ forestOption inner?)]
    | none, _ => forestOption outer? ++ forestOption inner?

def forestOption : Option Plan → List (JoinTree Nat)
  | none => []
  | some p => forest p

end

/-- The forest of a plan with the names of the relations at its leaves. -/
def skeleton (names : Names) (p : Plan) : Except BadIndex (List (JoinTree String)) :=
  JoinTree.traverseAll names.get (forest p)

mutual

/-- The relations that the join order names, from left to right, each with the number of joins above
its scan where so many stand above the plan. -/
def orderedScans : Plan → (joins : Nat) → List (Nat × Nat)
  | ⟨kind, _, _, outer?, inner?, _, _, _⟩, joins =>
    match leafOf? kind, kind with
    | some relation, _ => [(relation, joins)]
    | none, .join _ => orderedOption outer? (joins + 1) ++ orderedOption inner? (joins + 1)
    | none, _ => orderedOption outer? joins ++ orderedOption inner? joins

def orderedOption : Option Plan → (joins : Nat) → List (Nat × Nat)
  | none, _ => []
  | some p, joins => orderedScans p joins

end

/-! Forests node by node. -/

/-- What one puts together along the spine edges of a node comes from its outer and inner input. -/
theorem flatMap_inputs {α : Type} (f : Plan → List α) (p : Plan) :
    ((p.edges.filter fun b => b.1.isSpine).flatMap fun b => f b.2) =
      p.outer?.elim [] f ++ p.inner?.elim [] f := by
  have hinput : ∀ (e : Plan.Edge) (c? : Option Plan),
      ((Plan.edgeTo e c?).flatMap fun b => f b.2) = c?.elim [] f := by
    intro e c?
    cases c? with
    | none => rfl
    | some c => exact List.append_nil _
  rw [Plan.filter_edges, List.flatMap_append, hinput, hinput]

def inputForest (p : Plan) : List (JoinTree Nat) :=
  (p.edges.filter fun b => b.1.isSpine).flatMap fun b => forest b.2

theorem forest_eq (p : Plan) :
    forest p = match p.kind with
      | .scan kind relation => if isOrdered kind then [.leaf relation] else inputForest p
      | .join _ => [.group (inputForest p)]
      | _ => inputForest p := by
  have hoption : ∀ c? : Option Plan, forestOption c? = c?.elim [] forest := by
    intro c?
    cases c? <;> rfl
  rw [inputForest, flatMap_inputs]
  obtain ⟨kind, estimate, counts?, outer?, inner?, members, initPlans, subPlans⟩ := p
  unfold forest
  rw [hoption outer?, hoption inner?]
  cases kind with
  | scan kind relation => cases kind <;> rfl
  | _ => rfl

def inputScans (p : Plan) (joins : Nat) : List (Nat × Nat) :=
  (p.edges.filter fun b => b.1.isSpine).flatMap fun b => orderedScans b.2 joins

theorem orderedScans_eq (p : Plan) (joins : Nat) :
    orderedScans p joins = match p.kind with
      | .scan kind relation => if isOrdered kind then [(relation, joins)] else inputScans p joins
      | .join _ => inputScans p (joins + 1)
      | _ => inputScans p joins := by
  have hoption : ∀ (c? : Option Plan) joins,
      orderedOption c? joins = c?.elim [] fun c => orderedScans c joins := by
    intro c? joins
    cases c? <;> rfl
  have hinputs : ∀ joins, inputScans p joins =
      orderedOption p.outer? joins ++ orderedOption p.inner? joins := by
    intro joins
    rw [inputScans, flatMap_inputs fun c => orderedScans c joins, hoption, hoption]
  simp only [hinputs]
  obtain ⟨kind, estimate, counts?, outer?, inner?, members, initPlans, subPlans⟩ := p
  unfold orderedScans
  cases kind with
  | scan kind relation => cases kind <;> rfl
  | _ => rfl

namespace JoinTree

variable {α β ε : Type}

theorem traverseAll_append (f : α → Except ε β) (ts us : List (JoinTree α)) :
    traverseAll f (ts ++ us) = do return (← traverseAll f ts) ++ (← traverseAll f us) := by
  induction ts with
  | nil => cases h : traverseAll f us <;> simp [traverseAll, h, bind, Except.bind, pure, Except.pure]
  | cons t ts ih =>
      rw [List.cons_append, traverseAll, ih, traverseAll]
      cases traverse f t with
      | error e => rfl
      | ok t' =>
          cases traverseAll f ts with
          | error e => rfl
          | ok ts' => cases traverseAll f us <;> rfl

theorem textOf_append (ts us : List (JoinTree String)) :
    textOf (ts ++ us) = textOf ts ++ textOf us := by
  induction ts with
  | nil => exact String.empty_append.symm
  | cons t ts ih => rw [List.cons_append, textOf, ih, textOf, String.append_assoc]

theorem leavesOf_append (depth : Nat) (ts us : List (JoinTree α)) :
    leavesOf depth (ts ++ us) = leavesOf depth ts ++ leavesOf depth us := by
  induction ts with
  | nil => rfl
  | cons t ts ih => rw [List.cons_append, leavesOf, ih, leavesOf, List.append_assoc]

theorem leavesOf_flatMap (depth : Nat) {γ : Type} (f : γ → List (JoinTree α)) (items : List γ) :
    leavesOf depth (items.flatMap f) = items.flatMap fun a => leavesOf depth (f a) := by
  induction items with
  | nil => rfl
  | cons a items ih => rw [List.flatMap_cons, leavesOf_append, ih, List.flatMap_cons]

mutual

theorem leavesAt_traverse {f : α → Except ε β} (depth : Nat) : ∀ {t : JoinTree α} {u : JoinTree β},
    traverse f t = .ok u →
      List.Forall₂ (fun l m => f l.1 = .ok m.1 ∧ l.2 = m.2) (leavesAt depth t) (leavesAt depth u)
  | .leaf a, u, h => by
      rw [traverse] at h
      obtain ⟨b, hb, rfl⟩ := map_eq_ok.1 h
      exact .cons ⟨hb, rfl⟩ .nil
  | .group inputs, u, h => by
      rw [traverse] at h
      obtain ⟨us, hus, rfl⟩ := map_eq_ok.1 h
      exact leavesOf_traverse (depth + 1) hus

theorem leavesOf_traverse {f : α → Except ε β} (depth : Nat) :
    ∀ {ts : List (JoinTree α)} {us : List (JoinTree β)}, traverseAll f ts = .ok us →
      List.Forall₂ (fun l m => f l.1 = .ok m.1 ∧ l.2 = m.2) (leavesOf depth ts) (leavesOf depth us)
  | [], us, h => by
      obtain rfl := Except.ok.inj h
      exact .nil
  | t :: ts, us, h => by
      rw [traverseAll] at h
      obtain ⟨u, ht, h⟩ := bind_eq_ok.1 h
      obtain ⟨rest, hts, h⟩ := bind_eq_ok.1 h
      obtain rfl := Except.ok.inj h
      exact List.rel_append (leavesAt_traverse depth ht) (leavesOf_traverse depth hts)

end

end JoinTree

/-! The join order is the forest written out. -/

/-- What is put together of some forests is written as their texts, one after the other. -/
theorem mapM_text {γ : Type} {names : Names} {order : γ → Except BadIndex String}
    {trees : γ → List (JoinTree Nat)} {items : List γ}
    (h : ∀ a ∈ items,
      order a = (JoinTree.traverseAll names.get (trees a)).map JoinTree.textOf) :
    (items.mapM order).map String.join =
      (JoinTree.traverseAll names.get (items.flatMap trees)).map JoinTree.textOf := by
  induction items with
  | nil => rfl
  | cons a items ih =>
      have hrest := ih fun b hb => h b (List.mem_cons_of_mem a hb)
      rw [List.mapM_cons, h a List.mem_cons_self, List.flatMap_cons, JoinTree.traverseAll_append]
      cases JoinTree.traverseAll names.get (trees a) with
      | error bad => rfl
      | ok first =>
          calc _ = ((items.mapM order).map String.join).map (JoinTree.textOf first ++ ·) := by
                cases items.mapM order with
                | error bad => rfl
                | ok orders => exact congrArg Except.ok String.join_cons
            _ = ((JoinTree.traverseAll names.get (items.flatMap trees)).map JoinTree.textOf).map
                  (JoinTree.textOf first ++ ·) := by rw [hrest]
            _ = _ := by
                cases JoinTree.traverseAll names.get (items.flatMap trees) with
                | error bad => rfl
                | ok rest => exact congrArg Except.ok (JoinTree.textOf_append first rest).symm

theorem joinOrder_eq_text (names : Names) (p : Plan) :
    joinOrder names p = (skeleton names p).map JoinTree.textOf := by
  induction p using Plan.induction_edges with
  | step p ih =>
      have hinputs : inputOrder names p =
          (JoinTree.traverseAll names.get (inputForest p)).map JoinTree.textOf :=
        mapM_text fun b hb => ih b (List.mem_filter.1 hb).1
      rw [joinOrder_eq, skeleton, forest_eq]
      cases p.kind with
      | scan kind relation =>
          change (if isOrdered kind then do return (← names.get relation) ++ " "
            else inputOrder names p) = _
          cases h : isOrdered kind with
          | false => simpa only [h, Bool.false_eq_true, if_false] using hinputs
          | true =>
              simp only [h, if_true, JoinTree.traverseAll, JoinTree.traverse]
              cases names.get relation with
              | error bad => rfl
              | ok name => exact congrArg Except.ok String.append_empty.symm
      | join kind =>
          simp only [hinputs]
          rw [JoinTree.traverseAll, JoinTree.traverse]
          cases JoinTree.traverseAll names.get (inputForest p) with
          | error bad => rfl
          | ok trees => exact congrArg Except.ok String.append_empty.symm
      | bitmapIndexScan | foreignScan | customScan | modifyTable | composite | gather | other =>
          exact hinputs

theorem leavesOf_forest (p : Plan) :
    ∀ joins, JoinTree.leavesOf joins (forest p) = orderedScans p joins := by
  induction p using Plan.induction_edges with
  | step p ih =>
      have hinputs : ∀ joins, JoinTree.leavesOf joins (inputForest p) = inputScans p joins := by
        intro joins
        rw [inputForest, JoinTree.leavesOf_flatMap, inputScans]
        exact List.flatMap_congr fun b hb => ih b (List.mem_filter.1 hb).1 joins
      intro joins
      rw [forest_eq, orderedScans_eq]
      cases p.kind with
      | scan kind relation =>
          cases h : isOrdered kind with
          | false => simpa only [h, Bool.false_eq_true, if_false] using hinputs joins
          | true => simp only [h, if_true, JoinTree.leavesOf, JoinTree.leavesAt, List.append_nil]
      | join kind =>
          simp only [JoinTree.leavesOf, JoinTree.leavesAt, List.append_nil, hinputs]
      | bitmapIndexScan | foreignScan | customScan | modifyTable | composite | gather | other =>
          exact hinputs joins

theorem leavesOf_inputForest (p : Plan) (joins : Nat) :
    JoinTree.leavesOf joins (inputForest p) = inputScans p joins := by
  rw [inputForest, JoinTree.leavesOf_flatMap, inputScans]
  exact List.flatMap_congr fun b _ => leavesOf_forest b.2 joins

/-- What the join order names below a node is collected at the node too, which follows more edges. -/
theorem mem_collectRelations_of_orderedScans {p : Plan} {r : Nat} :
    (∀ joins depth, (r, depth) ∈ inputScans p joins → r ∈ p.collectRelations .skipAuxiliary) ∧
      ∀ joins depth, (r, depth) ∈ orderedScans p joins → r ∈ p.collectRelations .skipAuxiliary := by
  induction p using Plan.induction_edges with
  | step p ih =>
      have hinputs : ∀ joins depth, (r, depth) ∈ inputScans p joins →
          r ∈ p.collectRelations .skipAuxiliary := by
        intro joins depth h
        obtain ⟨b, hb, hr⟩ := List.mem_flatMap.1 h
        obtain ⟨hedge, hspine⟩ := List.mem_filter.1 hb
        have hfollows : Plan.EdgeFilter.skipAuxiliary.follows b.1 = true := by
          obtain ⟨e, c⟩ := b
          cases e with
          | outer | inner => rfl
          | member | initPlan | subPlan => cases hspine
        exact Plan.mem_collectRelations.2 (.inr ⟨b, hedge, hfollows, (ih b hedge).2 joins depth hr⟩)
      refine ⟨hinputs, fun joins depth h => ?_⟩
      rw [orderedScans_eq] at h
      split at h
      · rename_i kind relation hkind
        split at h
        · obtain ⟨rfl, -⟩ := Prod.mk.inj (List.mem_singleton.1 h)
          exact Plan.mem_collectRelations.2 (.inl (by rw [hkind]; exact List.mem_cons_self))
        · exact hinputs joins depth h
      · exact hinputs (joins + 1) depth h
      · exact hinputs joins depth h

/-! Reading a forest back. -/

/-- A name that ends where the text of a join order has the next space. -/
def IsPlainName (name : String) : Prop :=
  ' ' ∉ name.toList ∧ '(' ∉ name.toList ∧ ')' ∉ name.toList

/-- Texts whose parentheses match. -/
inductive Balanced : List Char → Prop
  | nil : Balanced []
  | sign {c : Char} {x : List Char} (hopen : c ≠ '(') (hclose : c ≠ ')') (hx : Balanced x) :
      Balanced (c :: x)
  | pair {x y : List Char} (hx : Balanced x) (hy : Balanced y) : Balanced ('(' :: (x ++ ')' :: y))

/-- The word with a number, counted from zero, is a name, and so many parentheses are open before
it. -/
def WordAt (x : List Char) (number : Nat) (name : String) (nesting : Nat) : Prop :=
  ∃ before after, x = before ++ (name.toList ++ ' ' :: after) ∧
    (∀ c ∈ before.getLast?, c = ' ' ∨ c = '(' ∨ c = ')') ∧ before.count ' ' = number ∧
    before.count '(' = before.count ')' + nesting

namespace Balanced

variable {x y : List Char}

theorem append (hx : Balanced x) (hy : Balanced y) : Balanced (x ++ y) := by
  induction hx with
  | nil => exact hy
  | sign hopen hclose _ ih => exact .sign hopen hclose ih
  | @pair x z hx _ _ ih =>
      rw [List.cons_append, List.append_assoc, List.cons_append]
      exact .pair hx ih

theorem of_signs (hx : ∀ c ∈ x, c ≠ '(' ∧ c ≠ ')') : Balanced x := by
  induction x with
  | nil => exact .nil
  | cons c x ih =>
      obtain ⟨hc, hx⟩ := List.forall_mem_cons.1 hx
      exact .sign hc.1 hc.2 (ih hx)

theorem count_eq (hx : Balanced x) : x.count '(' = x.count ')' := by
  induction hx with
  | nil => rfl
  | sign hopen hclose _ ih =>
      rw [List.count_cons_of_ne hopen, List.count_cons_of_ne hclose, ih]
  | pair _ _ ihx ihy =>
      simp only [List.count_cons, List.count_append, ihx, ihy]
      simp
      omega

end Balanced

namespace WordAt

variable {x y : List Char} {number nesting : Nat} {name : String}

theorem before_more (h : WordAt x number name nesting) (y : List Char) :
    WordAt (x ++ y) number name nesting := by
  obtain ⟨before, after, rfl, hend, hnumber, hnesting⟩ := h
  refine ⟨before, after ++ y, ?_, hend, hnumber, hnesting⟩
  simp only [List.append_assoc, List.cons_append]

theorem behind (hx : Balanced x) (hlast : ∀ c ∈ x.getLast?, c = ' ' ∨ c = '(' ∨ c = ')')
    (h : WordAt y number name nesting) : WordAt (x ++ y) (x.count ' ' + number) name nesting := by
  obtain ⟨before, after, rfl, hend, hnumber, hnesting⟩ := h
  refine ⟨x ++ before, after, List.append_assoc .. |>.symm, ?_, ?_, ?_⟩
  · intro c hc
    rw [List.getLast?_append] at hc
    cases hb : before.getLast? with
    | none => rw [hb] at hc; exact hlast c hc
    | some d => rw [hb] at hc; exact hend c (hb.trans hc)
  · rw [List.count_append, hnumber]
  · rw [List.count_append, List.count_append, hx.count_eq, hnesting, Nat.add_assoc]

theorem within (h : WordAt x number name nesting) :
    WordAt ('(' :: (x ++ [')'])) number name (nesting + 1) := by
  obtain ⟨before, after, hx, hend, hnumber, hnesting⟩ := h.before_more [')']
  refine ⟨'(' :: before, after, by rw [hx, List.cons_append], ?_, ?_, ?_⟩
  · intro c hc
    rw [List.getLast?_cons] at hc
    cases hb : before.getLast? with
    | none => rw [hb] at hc; exact .inr (.inl (Option.some.inj hc).symm)
    | some d => rw [hb] at hc; exact hend c (hb.trans hc)
  · rw [List.count_cons_of_ne (by decide), hnumber]
  · rw [List.count_cons_self, List.count_cons_of_ne (by decide), hnesting, Nat.add_assoc]

end WordAt

namespace JoinTree

/-- All leaves are names that can be told apart from what stands around them. -/
def Legible (leaves : List (String × Nat)) : Prop := ∀ l ∈ leaves, IsPlainName l.1

theorem name_cut {n m x y : List Char} (hn : ' ' ∉ n) (hm : ' ' ∉ m)
    (h : n ++ ' ' :: x = m ++ ' ' :: y) : n = m ∧ x = y := by
  have hread : ∀ {n x : List Char}, ' ' ∉ n → (n ++ ' ' :: x).takeWhile (· != ' ') = n := by
    intro n x hn
    have hname : ∀ c ∈ n, (c != ' ') = true := by
      intro c hc
      rw [bne_iff_ne]
      rintro rfl
      exact hn hc
    rw [List.takeWhile_append_of_pos hname]
    exact List.append_nil n
  have hname := congrArg (List.takeWhile (· != ' ')) h
  rw [hread hn, hread hm] at hname
  subst hname
  exact ⟨rfl, (List.cons.inj (List.append_cancel_left h)).2⟩

@[simp] theorem toList_text_leaf (name : String) :
    (text (.leaf name)).toList = name.toList ++ [' '] := by
  rw [text, String.toList_append]
  rfl

@[simp] theorem toList_text_group (inputs : List (JoinTree String)) :
    (text (.group inputs)).toList = '(' :: ((textOf inputs).toList ++ [')']) := by
  rw [text, String.toList_append, String.toList_append]
  rfl

@[simp] theorem toList_textOf_cons (t : JoinTree String) (ts : List (JoinTree String)) :
    (textOf (t :: ts)).toList = (text t).toList ++ (textOf ts).toList := by
  rw [textOf, String.toList_append]

theorem head_leaf {name : String} (hname : IsPlainName name) :
    ∃ c x, (text (.leaf name)).toList = c :: x ∧ c ≠ '(' ∧ c ≠ ')' := by
  obtain ⟨-, hopen, hclose⟩ := hname
  rw [toList_text_leaf]
  cases hc : name.toList with
  | nil => exact ⟨' ', [], rfl, by decide, by decide⟩
  | cons c x =>
      rw [hc] at hopen hclose
      exact ⟨c, x ++ [' '], rfl, List.ne_of_not_mem_cons hopen |>.symm,
        List.ne_of_not_mem_cons hclose |>.symm⟩

theorem head_text {depth : Nat} {t : JoinTree String} (ht : Legible (leavesAt depth t)) :
    ∃ c x, (text t).toList = c :: x ∧ c ≠ ')' := by
  cases t with
  | leaf name =>
      obtain ⟨c, x, hx, -, hc⟩ := head_leaf (ht (name, depth) (List.mem_singleton_self _))
      exact ⟨c, x, hx, hc⟩
  | group inputs => exact ⟨'(', _, toList_text_group inputs, by decide⟩

/-- What stands behind some trees: nothing, or the end of a group. -/
def Closes (x : List Char) : Prop := ∀ c ∈ x.head?, c = ')'

theorem closes_nil : Closes [] := fun c hc => (Option.not_mem_none c hc).elim

theorem Closes.ne_text {depth : Nat} {t : JoinTree String} (ht : Legible (leavesAt depth t))
    {x y : List Char} (hx : Closes x) : x ≠ (text t).toList ++ y := by
  rintro rfl
  obtain ⟨c, z, htext, hc⟩ := head_text ht
  exact hc (hx c (by rw [htext]; rfl))

mutual

theorem text_inj {depth depth' : Nat} : ∀ {t u : JoinTree String} {x y : List Char},
    Legible (leavesAt depth t) → Legible (leavesAt depth' u) →
    (text t).toList ++ x = (text u).toList ++ y → t = u ∧ x = y
  | .leaf n, .leaf m, x, y, ht, hu, h => by
      have hn : IsPlainName n := ht (n, depth) (List.mem_singleton_self _)
      have hm : IsPlainName m := hu (m, depth') (List.mem_singleton_self _)
      simp only [toList_text_leaf, List.append_assoc, List.singleton_append] at h
      obtain ⟨hname, hrest⟩ := name_cut hn.1 hm.1 h
      rw [String.toList_inj.1 hname]
      exact ⟨rfl, hrest⟩
  | .leaf n, .group us, x, y, ht, _, h => by
      obtain ⟨c, z, hn, hc, -⟩ := head_leaf (ht (n, depth) (List.mem_singleton_self _))
      rw [hn, toList_text_group] at h
      exact absurd (List.cons.inj h).1 hc
  | .group ts, .leaf m, x, y, _, hu, h => by
      obtain ⟨c, z, hm, hc, -⟩ := head_leaf (hu (m, depth') (List.mem_singleton_self _))
      rw [hm, toList_text_group] at h
      exact absurd (List.cons.inj h).1.symm hc
  | .group ts, .group us, x, y, ht, hu, h => by
      have hend : ∀ z, Closes (')' :: z) := fun z c hc => (Option.some.inj hc).symm
      simp only [toList_text_group, List.cons_append, List.append_assoc, List.cons.injEq,
        true_and] at h
      obtain ⟨rfl, hrest⟩ := textOf_inj ht hu (hend x) (hend y) h
      exact ⟨rfl, (List.cons.inj hrest).2⟩

theorem textOf_inj {depth depth' : Nat} : ∀ {ts us : List (JoinTree String)} {x y : List Char},
    Legible (leavesOf depth ts) → Legible (leavesOf depth' us) → Closes x → Closes y →
    (textOf ts).toList ++ x = (textOf us).toList ++ y → ts = us ∧ x = y
  | [], [], x, y, _, _, _, _, h => ⟨rfl, h⟩
  | [], u :: us, x, y, _, hu, hx, _, h => by
      rw [toList_textOf_cons, List.append_assoc] at h
      exact absurd h (hx.ne_text fun l hl => hu l (List.mem_append_left _ hl))
  | t :: ts, [], x, y, ht, _, _, hy, h => by
      rw [toList_textOf_cons, List.append_assoc] at h
      exact absurd h.symm (hy.ne_text fun l hl => ht l (List.mem_append_left _ hl))
  | t :: ts, u :: us, x, y, ht, hu, hx, hy, h => by
      simp only [toList_textOf_cons, List.append_assoc] at h
      obtain ⟨rfl, hrest⟩ := text_inj (fun l hl => ht l (List.mem_append_left _ hl))
        (fun l hl => hu l (List.mem_append_left _ hl)) h
      obtain ⟨rfl, hxy⟩ := textOf_inj (fun l hl => ht l (List.mem_append_right _ hl))
        (fun l hl => hu l (List.mem_append_right _ hl)) hx hy hrest
      exact ⟨rfl, hxy⟩

end

/-! Parentheses. -/

mutual

theorem balanced_text {depth : Nat} : ∀ {t : JoinTree String}, Legible (leavesAt depth t) →
    Balanced (text t).toList
  | .leaf n, h => by
      obtain ⟨-, hopen, hclose⟩ := h (n, depth) (List.mem_singleton_self _)
      rw [toList_text_leaf]
      have hname : Balanced n.toList := .of_signs fun c hc =>
        ⟨fun h => hopen (h ▸ hc), fun h => hclose (h ▸ hc)⟩
      exact hname.append (.sign (by decide) (by decide) .nil)
  | .group ts, h => by
      rw [toList_text_group]
      exact .pair (balanced_textOf h) .nil

theorem balanced_textOf {depth : Nat} : ∀ {ts : List (JoinTree String)},
    Legible (leavesOf depth ts) → Balanced (textOf ts).toList
  | [], _ => .nil
  | t :: ts, h => by
      rw [toList_textOf_cons]
      exact (balanced_text fun l hl => h l (List.mem_append_left _ hl)).append
        (balanced_textOf fun l hl => h l (List.mem_append_right _ hl))

end

mutual

/-- Each leaf ends with a space, and there are no others. -/
theorem count_space_text {depth : Nat} : ∀ {t : JoinTree String}, Legible (leavesAt depth t) →
    (text t).toList.count ' ' = (leavesAt depth t).length
  | .leaf n, h => by
      have hn : IsPlainName n := h (n, depth) (List.mem_singleton_self _)
      rw [toList_text_leaf, List.count_append, List.count_eq_zero.2 hn.1]
      rfl
  | .group ts, h => by
      rw [toList_text_group, leavesAt, ← count_space_textOf h]
      simp

theorem count_space_textOf {depth : Nat} : ∀ {ts : List (JoinTree String)},
    Legible (leavesOf depth ts) → (textOf ts).toList.count ' ' = (leavesOf depth ts).length
  | [], _ => rfl
  | t :: ts, h => by
      rw [toList_textOf_cons, List.count_append, leavesOf, List.length_append,
        count_space_text fun l hl => h l (List.mem_append_left _ hl),
        count_space_textOf fun l hl => h l (List.mem_append_right _ hl)]

end

theorem getLast?_text (t : JoinTree String) :
    ∀ c ∈ (text t).toList.getLast?, c = ' ' ∨ c = '(' ∨ c = ')' := by
  cases t with
  | leaf name =>
      rw [toList_text_leaf, List.getLast?_concat]
      exact fun c hc => .inl (Option.some.inj hc).symm
  | group inputs =>
      rw [toList_text_group, ← List.cons_append, List.getLast?_concat]
      exact fun c hc => .inr (.inr (Option.some.inj hc).symm)

mutual

/-- The leaves are the words of the text, in order, and around each stand as many parentheses as
groups. -/
theorem wordAt_text {depth : Nat} : ∀ {t : JoinTree String} {k : Nat} {l : String × Nat},
    Legible (leavesAt depth t) → (leavesAt depth t)[k]? = some l →
      ∃ nesting, l.2 = depth + nesting ∧ WordAt (text t).toList k l.1 nesting
  | .leaf n, 0, l, _, hk => by
      obtain rfl := Option.some.inj hk
      exact ⟨0, rfl, [], [], toList_text_leaf n, fun c hc => (Option.not_mem_none c hc).elim, rfl, rfl⟩
  | .leaf n, k + 1, l, _, hk => by cases hk
  | .group ts, k, l, h, hk => by
      obtain ⟨nesting, hl, hword⟩ := wordAt_textOf h hk
      refine ⟨nesting + 1, by omega, ?_⟩
      rw [toList_text_group]
      exact hword.within

theorem wordAt_textOf {depth : Nat} : ∀ {ts : List (JoinTree String)} {k : Nat} {l : String × Nat},
    Legible (leavesOf depth ts) → (leavesOf depth ts)[k]? = some l →
      ∃ nesting, l.2 = depth + nesting ∧ WordAt (textOf ts).toList k l.1 nesting
  | [], k, l, _, hk => by cases hk
  | t :: ts, k, l, h, hk => by
      have hfirst : Legible (leavesAt depth t) := fun l hl => h l (List.mem_append_left _ hl)
      have hrest : Legible (leavesOf depth ts) := fun l hl => h l (List.mem_append_right _ hl)
      rw [leavesOf, List.getElem?_append] at hk
      rw [toList_textOf_cons]
      split at hk
      · obtain ⟨nesting, hl, hword⟩ := wordAt_text hfirst hk
        exact ⟨nesting, hl, hword.before_more _⟩
      · rename_i hlt
        obtain ⟨nesting, hl, hword⟩ := wordAt_textOf hrest hk
        refine ⟨nesting, hl, ?_⟩
        have hnumber : k = (text t).toList.count ' ' + (k - (leavesAt depth t).length) := by
          rw [count_space_text hfirst]
          omega
        rw [hnumber]
        exact hword.behind (balanced_text hfirst) (getLast?_text t)

end

end JoinTree

theorem leading_eq_ok {names : Names} {p : Plan} {x : String} (h : leading names p = .ok x) :
    ∃ s, skeleton names p = .ok s ∧ x = "LEADING( " ++ JoinTree.textOf s ++ " )" := by
  rw [leading, joinOrder_eq_text] at h
  obtain ⟨order, horder, h⟩ := bind_eq_ok.1 h
  obtain ⟨s, hs, rfl⟩ := map_eq_ok.1 horder
  exact ⟨s, hs, (Except.ok.inj h).symm⟩

/-- The named leaves of a plan are its ordered scans. -/
theorem leaves_skeleton {names : Names} {p : Plan} {s : List (JoinTree String)}
    (h : skeleton names p = .ok s) :
    List.Forall₂ (fun l m => names.get l.1 = .ok m.1 ∧ l.2 = m.2) (orderedScans p 0)
      (JoinTree.leavesOf 0 s) := by
  rw [← leavesOf_forest]
  exact JoinTree.leavesOf_traverse 0 h

theorem exists_getElem? {γ δ : Type} {R : γ → δ → Prop} {xs : List γ} {ys : List δ}
    (h : List.Forall₂ R xs ys) {k : Nat} {a : γ} (hk : xs[k]? = some a) :
    ∃ b, ys[k]? = some b ∧ R a b := by
  induction h generalizing k with
  | nil => cases hk
  | cons hab _ ih =>
      cases k with
      | zero =>
          obtain rfl := Option.some.inj hk
          exact ⟨_, rfl, hab⟩
      | succ k => exact ih hk

theorem legible_skeleton {names : Names} (hplain : ∀ name ∈ names.toList, IsPlainName name)
    {p : Plan} {s : List (JoinTree String)} (h : skeleton names p = .ok s) :
    JoinTree.Legible (JoinTree.leavesOf 0 s) := by
  intro l hl
  obtain ⟨k, hk⟩ := List.mem_iff_getElem?.1 hl
  obtain ⟨scan, -, hname, -⟩ := exists_getElem? (leaves_skeleton h).flip hk
  exact hplain l.1 (Plan.Names.mem_of_get hname)

/-- The text of the join order directive is balanced and tells the skeleton of the plan: the words
between its parentheses are the names of the scans, in order, and in each case as many parentheses
are open as there are joins above the scan. -/
theorem leading_tells {names names' : Names} {p p' : Plan} {x x' : String}
    (hplain : ∀ name ∈ names.toList, IsPlainName name)
    (hplain' : ∀ name ∈ names'.toList, IsPlainName name) (h : leading names p = .ok x)
    (h' : leading names' p' = .ok x') :
    (∃ s s', skeleton names p = .ok s ∧ skeleton names' p' = .ok s' ∧ (x = x' ↔ s = s')) ∧
    Balanced x.toList ∧
    ∃ order, x = "LEADING( " ++ order ++ " )" ∧ Balanced order.toList ∧
      order.toList.count ' ' = (orderedScans p 0).length ∧
      ∀ k relation joins, (orderedScans p 0)[k]? = some (relation, joins) →
        ∃ name, names.get relation = .ok name ∧ WordAt order.toList k name joins := by
  obtain ⟨s, hs, rfl⟩ := leading_eq_ok h
  obtain ⟨s', hs', rfl⟩ := leading_eq_ok h'
  have hlegible := legible_skeleton hplain hs
  have hlegible' := legible_skeleton hplain' hs'
  have hbalanced := JoinTree.balanced_textOf hlegible
  refine ⟨⟨s, s', hs, hs', ?_⟩, ?_, JoinTree.textOf s, rfl, hbalanced, ?_, ?_⟩
  · have hcancel : "LEADING( " ++ JoinTree.textOf s ++ " )" = "LEADING( " ++ JoinTree.textOf s' ++ " )" ↔
        (JoinTree.textOf s).toList ++ [] = (JoinTree.textOf s').toList ++ [] := by
      simp only [← String.toList_inj, String.toList_append, List.append_cancel_left_eq,
        List.append_cancel_right_eq]
    rw [hcancel]
    constructor
    · intro heq
      exact (JoinTree.textOf_inj hlegible hlegible' JoinTree.closes_nil JoinTree.closes_nil heq).1
    · rintro rfl
      rfl
  · have hword : "LEADING( ".toList = ['L', 'E', 'A', 'D', 'I', 'N', 'G'] ++ ['(', ' '] := by
      decide +kernel
    have hend : " )".toList = [' ', ')'] := by decide +kernel
    have hspaced : Balanced (' ' :: ((JoinTree.textOf s).toList ++ [' '])) :=
      .sign (by decide) (by decide) (hbalanced.append (.sign (by decide) (by decide) .nil))
    have hdirective : Balanced (['L', 'E', 'A', 'D', 'I', 'N', 'G'] ++
        '(' :: (' ' :: ((JoinTree.textOf s).toList ++ [' ']) ++ ')' :: [])) :=
      (Balanced.of_signs (by simp)).append (.pair hspaced .nil)
    simpa only [String.toList_append, hword, hend, List.append_assoc, List.cons_append,
      List.nil_append] using hdirective
  · rw [JoinTree.count_space_textOf hlegible, (leaves_skeleton hs).length_eq]
  · intro k relation joins hk
    obtain ⟨l, hl, hname, hjoins⟩ := exists_getElem? (leaves_skeleton hs) hk
    obtain ⟨nesting, hnesting, hword⟩ := JoinTree.wordAt_textOf hlegible hl
    have hjoins : nesting = joins := by omega
    rw [hjoins] at hword
    exact ⟨l.1, hname, hword⟩

/-- Three scans, two of them below the outer or the inner input of the upper join. -/
def outerFirst : Plan :=
  .join .hashJoin (.join .nestLoop (.scan .seq 1 5) (.scan .index 2 5) 5)
    (.unary "Hash" (.scan .cte 3 5) 5) 5

def innerFirst : Plan :=
  .join .mergeJoin (.scan .function 1 5)
    (.unary "Sort" (.join .hashJoin (.scan .bitmapHeap 2 5) (.scan .indexOnly 3 5) 5) 5) 5

/-- The second of the three relations has the empty name. -/
theorem leading_tells_nested :
    (∀ name ∈ ["a", "", "b"], IsPlainName name) ∧
      ∃ x x', leading ⟨["a", "", "b"]⟩ outerFirst = .ok x ∧
        leading ⟨["a", "", "b"]⟩ innerFirst = .ok x' ∧ Balanced x.toList ∧ x ≠ x' := by
  have hplain : ∀ name ∈ ["a", "", "b"], IsPlainName name := by simp [IsPlainName]
  obtain ⟨x, hx⟩ : ∃ x, leading ⟨["a", "", "b"]⟩ outerFirst = .ok x := ⟨_, rfl⟩
  obtain ⟨x', hx'⟩ : ∃ x', leading ⟨["a", "", "b"]⟩ innerFirst = .ok x' := ⟨_, rfl⟩
  obtain ⟨⟨s, s', hs, hs', hiff⟩, hbalanced, -⟩ := leading_tells hplain hplain hx hx'
  refine ⟨hplain, x, x', hx, hx', hbalanced, fun heq => ?_⟩
  have hleft : skeleton ⟨["a", "", "b"]⟩ outerFirst =
      .ok [.group [.group [.leaf "a", .leaf ""], .leaf "b"]] := rfl
  have hright : skeleton ⟨["a", "", "b"]⟩ innerFirst =
      .ok [.group [.leaf "a", .group [.leaf "", .leaf "b"]]] := rfl
  rw [hiff.1 heq, ← hs', hleft, hright] at hs
  simp at hs

end PlanFeedback.Advice
