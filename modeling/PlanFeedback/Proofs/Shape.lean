import Mathlib.Data.List.Forall2
import PlanFeedback.Advice.Shape
import PlanFeedback.Proofs.JsonText

/-!
The document of a shape tells the shape. Its text is read back to the document, each member of the
document is found under its name, and the members determine the node and its children. No count
enters a shape, so plans that differ in their counts alone have one id.
-/
namespace PlanFeedback

namespace Json

/-- Values that are printed alike are equal. -/
theorem render_inj {v w : Json} (hv : Printable v) (hw : Printable w)
    (h : v.render = w.render) : v = w := by
  have hread := ofBytes?_render hv
  rw [h, ofBytes?_render hw] at hread
  exact (Option.some.inj hread).symm

theorem record_inj {ms ns : List (String × Json)} (h : record ms = record ns) : ms = ns := by
  have hinj : Function.Injective fun m : String × Json => ((some m.1, m.2) : Text × Json) := by
    rintro ⟨a, v⟩ ⟨b, w⟩ hab
    cases hab
    rfl
  exact hinj.list_map (Json.object.inj h)

theorem ofString_injective : Function.Injective ofString := by
  intro s t h
  cases h
  rfl

theorem printableItems_iff {items : List Json} :
    PrintableItems items ↔ ∀ v ∈ items, Printable v := by
  induction items with
  | nil => simp [PrintableItems]
  | cons v items ih => simp [PrintableItems, ih]

theorem printable_record {ms : List (String × Json)} :
    Printable (record ms) ↔ ∀ m ∈ ms, Printable m.2 := by
  change PrintableMembers (ms.map fun m => (some m.1, m.2)) ↔ _
  induction ms with
  | nil => simp [PrintableMembers]
  | cons m ms ih => simp [PrintableMembers, ih]

end Json

namespace Plan

/-! Plans without counts. -/

mutual

/-- The plan with neither estimates nor run-time counts. -/
def bare : Plan → Plan
  | ⟨kind, _, _, outer?, inner?, members, initPlans, subPlans⟩ =>
    { kind, estimate := 0, outer? := bareOption outer?, inner? := bareOption inner?,
      members := bareList members, initPlans := bareList initPlans, subPlans := bareList subPlans }

def bareOption : Option Plan → Option Plan
  | none => none
  | some p => some p.bare

def bareList : List Plan → List Plan
  | [] => []
  | p :: rest => p.bare :: bareList rest

end

@[simp] theorem kind_bare (p : Plan) : p.bare.kind = p.kind := by
  cases p
  rw [bare]

theorem edgeTo_bare (e : Edge) (p? : Option Plan) :
    edgeTo e (bareOption p?) = (edgeTo e p?).map fun b => (b.1, b.2.bare) := by
  cases p? <;> rfl

theorem edgesFrom_bare (sort : Nat → Edge) (i : Nat) (ps : List Plan) :
    edgesFrom sort i (bareList ps) = (edgesFrom sort i ps).map fun b => (b.1, b.2.bare) := by
  induction ps generalizing i with
  | nil => rfl
  | cons p ps ih => rw [bareList, edgesFrom, ih, edgesFrom, List.map_cons]

theorem edges_bare (p : Plan) : p.bare.edges = p.edges.map fun b => (b.1, b.2.bare) := by
  cases p
  simp only [bare, edges, edgeTo_bare, edgesFrom_bare, List.map_append]

/-! Entries of a range table. -/

theorem itemAt_eq_ok {α : Type} {items : List α} {index : Nat} {item : α} :
    itemAt items index = .ok item ↔ ∃ i, index = i + 1 ∧ items[i]? = some item := by
  cases index with
  | zero => simp [itemAt]
  | succ i =>
      rw [itemAt]
      cases h : items[i]? <;> simp [h]

/-- The relation with the index, counted from one, is the entry. -/
def RangeTable.Has (table : RangeTable) (relation : Nat) (entry : RangeEntry) : Prop :=
  ∃ i, relation = i + 1 ∧ table[i]? = some entry

theorem RangeTable.get_eq_ok {table : RangeTable} {relation : Nat} {entry : RangeEntry} :
    table.get relation = .ok entry ↔ table.Has relation entry := itemAt_eq_ok

theorem Names.mem_of_get {names : Names} {relation : Nat} {name : String}
    (h : names.get relation = .ok name) : name ∈ names.toList := by
  obtain ⟨i, -, hitem⟩ := itemAt_eq_ok.1 h
  exact List.mem_of_getElem? hitem

end Plan

namespace Advice

open Json (Printable PrintableItems printableItems_iff printable_record)
open Plan (BadIndex Edge Kind RangeEntry RangeTable)

/-! Lists of results. -/

theorem map_eq_ok {α β ε : Type} {f : α → β} {x : Except ε α} {b : β} :
    x.map f = .ok b ↔ ∃ a, x = .ok a ∧ f a = b := by
  cases x <;> simp [Except.map]

theorem bind_eq_ok {α β ε : Type} {x : Except ε α} {f : α → Except ε β} {b : β} :
    x >>= f = .ok b ↔ ∃ a, x = .ok a ∧ f a = .ok b := by
  cases x <;> simp [bind, Except.bind]

theorem mapM_eq_ok {α β ε : Type} {f : α → Except ε β} {items : List α} {values : List β} :
    items.mapM f = .ok values ↔ List.Forall₂ (fun a b => f a = .ok b) items values := by
  induction items generalizing values with
  | nil => simp [pure, Except.pure, eq_comm]
  | cons a items ih =>
      rw [List.mapM_cons, List.forall₂_cons_left_iff]
      simp only [bind_eq_ok, ih]
      constructor
      · rintro ⟨b, hb, rest, hrest, h⟩
        exact ⟨b, rest, hb, hrest, (Except.ok.inj h).symm⟩
      · rintro ⟨b, rest, hb, hrest, rfl⟩
        exact ⟨b, hb, rest, hrest, rfl⟩

theorem mapM_append_eq_ok {α β ε : Type} {f : α → Except ε β} {items more : List α}
    {values : List β} :
    (items ++ more).mapM f = .ok values ↔
      ∃ first rest, items.mapM f = .ok first ∧ more.mapM f = .ok rest ∧ first ++ rest = values := by
  rw [List.mapM_append, bind_eq_ok]
  constructor
  · rintro ⟨first, hfirst, h⟩
    obtain ⟨rest, hrest, h⟩ := bind_eq_ok.1 h
    exact ⟨first, rest, hfirst, hrest, Except.ok.inj h⟩
  · rintro ⟨first, rest, hfirst, hrest, rfl⟩
    exact ⟨first, hfirst, bind_eq_ok.2 ⟨rest, hrest, rfl⟩⟩

theorem forall₂_congr_of_mem {α β : Type} {R S : α → β → Prop} {items : List α} {values : List β}
    (h : ∀ a ∈ items, ∀ b, R a b ↔ S a b) :
    List.Forall₂ R items values ↔ List.Forall₂ S items values := by
  induction items generalizing values with
  | nil => simp
  | cons a items ih =>
      have hrest : ∀ {bs : List β}, List.Forall₂ R items bs ↔ List.Forall₂ S items bs :=
        ih fun b hb => h b (List.mem_cons_of_mem a hb)
      simp only [List.forall₂_cons_left_iff, h a List.mem_cons_self, hrest]

theorem mapM_congr_of_mem {α β ε : Type} {f g : α → Except ε β} {items : List α}
    (h : ∀ a ∈ items, f a = g a) : items.mapM f = items.mapM g := by
  induction items with
  | nil => rfl
  | cons a items ih =>
      rw [List.mapM_cons, List.mapM_cons, h a List.mem_cons_self,
        ih fun b hb => h b (List.mem_cons_of_mem a hb)]

/-! Targets of nodes. -/

/-- What a node of a kind reads or writes: a relation of the table, several, an index or nothing. -/
inductive HasTarget (table : RangeTable) : Kind → Target → Prop
  | scan {method : Plan.ScanKind} {relation : Nat} {entry : RangeEntry}
      (h : table.Has relation entry) :
      HasTarget table (.scan method relation) (.relation entry.relation? entry.reference)
  | modifyTable {relation : Nat} {exclusion? : Option Nat} {entry : RangeEntry}
      (h : table.Has relation entry) :
      HasTarget table (.modifyTable relation exclusion?)
        (.relation entry.relation? entry.reference)
  | foreignScan {relation : Nat} {entry : RangeEntry} (h : table.Has relation entry) :
      HasTarget table (.foreignScan [relation]) (.relation entry.relation? entry.reference)
  | customScan {relation : Nat} {entry : RangeEntry} (h : table.Has relation entry) :
      HasTarget table (.customScan [relation]) (.relation entry.relation? entry.reference)
  | foreignScans {relations : List Nat} {entries : List RangeEntry} (hmany : relations.length ≠ 1)
      (h : List.Forall₂ table.Has relations entries) :
      HasTarget table (.foreignScan relations) (.relations (entries.map RangeEntry.reference))
  | customScans {relations : List Nat} {entries : List RangeEntry} (hmany : relations.length ≠ 1)
      (h : List.Forall₂ table.Has relations entries) :
      HasTarget table (.customScan relations) (.relations (entries.map RangeEntry.reference))
  | bitmapIndexScan {name : String} : HasTarget table (.bitmapIndexScan name) (.index name)
  | join {method : Plan.JoinKind} : HasTarget table (.join method) .nothing
  | composite {operator : Plan.CompositeKind} : HasTarget table (.composite operator) .nothing
  | gather {invisible : Bool} : HasTarget table (.gather invisible) .nothing
  | other {name : String} : HasTarget table (.other name) .nothing

section

variable {table : RangeTable} {t : Target}

theorem relationTarget_eq_ok {relation : Nat} :
    relationTarget table relation = .ok t ↔
      ∃ entry, table.Has relation entry ∧ .relation entry.relation? entry.reference = t := by
  simp only [← RangeTable.get_eq_ok]
  exact map_eq_ok

/-- The references of relations are looked up one by one. -/
theorem mapM_reference_eq_ok {relations : List Nat} {names : List String} :
    (relations.mapM fun r => (table.get r).map RangeEntry.reference) = .ok names ↔
      ∃ entries, List.Forall₂ table.Has relations entries ∧
        entries.map RangeEntry.reference = names := by
  simp only [mapM_eq_ok, map_eq_ok, RangeTable.get_eq_ok]
  constructor
  · intro h
    induction h with
    | nil => exact ⟨[], .nil, rfl⟩
    | cons hr _ ih =>
        obtain ⟨entry, hentry, rfl⟩ := hr
        obtain ⟨entries, hentries, rfl⟩ := ih
        exact ⟨entry :: entries, .cons hentry hentries, rfl⟩
  · rintro ⟨entries, hentries, rfl⟩
    induction hentries with
    | nil => exact .nil
    | cons hentry _ ih => exact .cons ⟨_, hentry, rfl⟩ ih

theorem foreignTarget_eq_ok {relations : List Nat} (hmany : relations.length ≠ 1) :
    foreignTarget table relations = .ok t ↔
      ∃ entries, List.Forall₂ table.Has relations entries ∧
        .relations (entries.map RangeEntry.reference) = t := by
  have hmap : foreignTarget table relations =
      (relations.mapM fun r => (table.get r).map RangeEntry.reference).map .relations := by
    rcases relations with _ | ⟨r, _ | ⟨r', rest⟩⟩
    · rfl
    · exact absurd rfl hmany
    · rfl
  rw [hmap, map_eq_ok]
  simp only [mapM_reference_eq_ok]
  constructor
  · rintro ⟨names, ⟨entries, hentries, rfl⟩, rfl⟩
    exact ⟨entries, hentries, rfl⟩
  · rintro ⟨entries, hentries, rfl⟩
    exact ⟨_, ⟨entries, hentries, rfl⟩, rfl⟩

/-- Each kind has the target that is computed for it, and no other. -/
theorem hasTarget_iff {kind : Kind} : HasTarget table kind t ↔ target table kind = .ok t := by
  constructor
  · intro h
    cases h with
    | scan h | modifyTable h | foreignScan h | customScan h =>
        exact relationTarget_eq_ok.2 ⟨_, h, rfl⟩
    | foreignScans hmany h | customScans hmany h =>
        exact (foreignTarget_eq_ok hmany).2 ⟨_, h, rfl⟩
    | bitmapIndexScan | join | composite | gather | other => rfl
  · intro h
    cases kind with
    | scan method relation =>
        obtain ⟨entry, hentry, rfl⟩ := relationTarget_eq_ok.1 h
        exact .scan hentry
    | modifyTable relation exclusion? =>
        obtain ⟨entry, hentry, rfl⟩ := relationTarget_eq_ok.1 h
        exact .modifyTable hentry
    | foreignScan relations =>
        by_cases hone : relations.length = 1
        · obtain ⟨relation, rfl⟩ := List.length_eq_one_iff.1 hone
          obtain ⟨entry, hentry, rfl⟩ := relationTarget_eq_ok.1 h
          exact .foreignScan hentry
        · obtain ⟨entries, hentries, rfl⟩ := (foreignTarget_eq_ok hone).1 h
          exact .foreignScans hone hentries
    | customScan relations =>
        by_cases hone : relations.length = 1
        · obtain ⟨relation, rfl⟩ := List.length_eq_one_iff.1 hone
          obtain ⟨entry, hentry, rfl⟩ := relationTarget_eq_ok.1 h
          exact .customScan hentry
        · obtain ⟨entries, hentries, rfl⟩ := (foreignTarget_eq_ok hone).1 h
          exact .customScans hone hentries
    | bitmapIndexScan name =>
        obtain rfl := Except.ok.inj h
        exact .bitmapIndexScan
    | join method =>
        obtain rfl := Except.ok.inj h
        exact .join
    | composite operator =>
        obtain rfl := Except.ok.inj h
        exact .composite
    | gather invisible =>
        obtain rfl := Except.ok.inj h
        exact .gather
    | other name =>
        obtain rfl := Except.ok.inj h
        exact .other

end

/-! Shapes of plans. -/

/-- A plan that hangs on an edge, or a root, has a shape: the name of its type, its relationship to
the parent, its target, and the shapes of its children in the order of the edges. -/
inductive HasShape (table : RangeTable) : Option Edge → Plan → Shape → Prop
  | node {edge? : Option Edge} {p : Plan} {t : Target} {children : List Shape}
      (hasTarget : HasTarget table p.kind t)
      (haveShapes : List.Forall₂ (fun b s => HasShape table (some b.1) b.2 s) p.edges children) :
      HasShape table edge? p (.node p.kind.typeName (edge?.map Edge.relationship) t children)

theorem shapeAt_eq (table : RangeTable) (p : Plan) (edge? : Option Edge) :
    shapeAt table p edge? = (do
      let t ← target table p.kind
      let children ← p.edges.mapM fun b => shapeAt table b.2 (some b.1)
      return .node p.kind.typeName (edge?.map Edge.relationship) t children) := by
  rw [shapeAt, Plan.fold_eq, List.mapM_map]
  rfl

/-- The shape that is computed is the only one that a plan has. -/
theorem hasShape_iff {table : RangeTable} {p : Plan} :
    ∀ {edge? : Option Edge} {s : Shape},
      HasShape table edge? p s ↔ shapeAt table p edge? = .ok s := by
  induction p using Plan.induction_edges with
  | step p ih =>
      intro edge? s
      have hchildren : ∀ children,
          List.Forall₂ (fun b s => HasShape table (some b.1) b.2 s) p.edges children ↔
            (p.edges.mapM fun b => shapeAt table b.2 (some b.1)) = .ok children := by
        intro children
        rw [mapM_eq_ok]
        exact forall₂_congr_of_mem fun b hb s => ih b hb
      rw [shapeAt_eq]
      constructor
      · rintro ⟨ht, hshapes⟩
        rw [hasTarget_iff.1 ht, (hchildren _).1 hshapes]
        rfl
      · intro h
        obtain ⟨t, ht, h⟩ := bind_eq_ok.1 h
        obtain ⟨children, hmap, h⟩ := bind_eq_ok.1 h
        obtain rfl := Except.ok.inj h
        exact .node (hasTarget_iff.2 ht) ((hchildren _).2 hmap)

theorem shapeAt_bare (table : RangeTable) (p : Plan) :
    ∀ edge?, shapeAt table p.bare edge? = shapeAt table p edge? := by
  induction p using Plan.induction_edges with
  | step p ih =>
      intro edge?
      have hmap : (p.bare.edges.mapM fun b => shapeAt table b.2 (some b.1)) =
          p.edges.mapM fun b => shapeAt table b.2 (some b.1) := by
        rw [Plan.edges_bare, List.mapM_map]
        exact mapM_congr_of_mem fun b hb => ih b hb (some b.1)
      rw [shapeAt_eq, shapeAt_eq, hmap, Plan.kind_bare]

/-- Plans that differ in their counts alone have one shape. -/
theorem shape_congr (table : RangeTable) {p q : Plan} (h : p.bare = q.bare) :
    shape table p = shape table q := by
  rw [shape, shape, ← shapeAt_bare, h, shapeAt_bare]

/-! Documents of shapes. -/

namespace Target

/-- The name under which the target is spoken of. -/
def alias? : Target → Option String
  | .relation _ reference => some reference
  | _ => none

def indexName? : Target → Option String
  | .index name => some name
  | _ => none

def relationName? : Target → Option String
  | .relation name? _ => name?
  | _ => none

def references? : Target → Option (List String)
  | .relations references => some references
  | _ => none

theorem ext {t u : Target} (halias : t.alias? = u.alias?) (hindex : t.indexName? = u.indexName?)
    (hname : t.relationName? = u.relationName?) (hrefs : t.references? = u.references?) :
    t = u := by
  cases t <;> cases u <;> simp_all [alias?, indexName?, relationName?, references?]

end Target

namespace Shape

open Json (ofString ofString_injective record_inj render_inj)

def memberNames : List String :=
  ["Alias", "Index Name", "Node Type", "Parent Relationship", "Plans", "Relation Name", "Relations"]

theorem lookup_members (n : String) (r? : Option String) (t : Target) (cs : List Shape) :
    (memberNames.map fun name => (Shape.node n r? t cs).members.lookup name) =
      [t.alias?.map ofString, t.indexName?.map ofString, some (ofString n), r?.map ofString,
        if cs.isEmpty then none else some (.array (documents cs)), t.relationName?.map ofString,
        t.references?.map fun names => .array (names.map ofString)] := by
  rcases t with _ | ⟨_ | _, _⟩ | _ | _ <;> cases r? <;> cases cs <;>
    simp [memberNames, members, nameMember, Target.alias?, Target.indexName?,
      Target.relationName?, Target.references?, List.lookup_cons]

mutual

/-- The members of the document of a shape determine the shape. -/
theorem members_inj : ∀ {s t : Shape}, s.members = t.members → s = t
  | .node n r? t cs, .node m q? u ds, h => by
      have hlookup := lookup_members n r? t cs
      rw [h, lookup_members] at hlookup
      simp only [List.cons.injEq, and_true] at hlookup
      obtain ⟨halias, hindex, hname, hrelationship, hplans, hrelation, hrelations⟩ := hlookup
      have htarget : u = t := by
        refine Target.ext (Option.map_injective ofString_injective halias)
          (Option.map_injective ofString_injective hindex)
          (Option.map_injective ofString_injective hrelation) ?_
        refine Option.map_injective (fun xs ys h => ?_) hrelations
        exact ofString_injective.list_map (Json.array.inj h)
      have hdocuments : documents cs = documents ds := by
        cases cs with
        | nil =>
            cases ds with
            | nil => rfl
            | cons t ds => simp at hplans
        | cons s cs =>
            cases ds with
            | nil => simp at hplans
            | cons t ds => simpa using hplans.symm
      rw [htarget, documents_inj hdocuments, ofString_injective (Option.some.inj hname),
        Option.map_injective ofString_injective hrelationship]

theorem documents_inj : ∀ {ss ts : List Shape}, documents ss = documents ts → ss = ts
  | [], [], _ => rfl
  | [], _ :: _, h => by cases h
  | _ :: _, [], h => by cases h
  | s :: ss, t :: ts, h => by
      obtain ⟨hs, hss⟩ := List.cons.inj h
      rw [members_inj (record_inj hs), documents_inj hss]

end

theorem document_inj {s t : Shape} (h : s.document = t.document) : s = t := by
  have hplan := record_inj h
  simp only [List.cons.injEq, Prod.mk.injEq, true_and, and_true] at hplan
  exact members_inj (record_inj hplan)

theorem printable_ofString (s : String) : Printable (ofString s) := trivial

theorem printable_nameMember (name : String) (s? : Option String) :
    ∀ m ∈ nameMember name s?, Printable m.2 := by
  cases s? <;> simp [nameMember, printable_ofString]

mutual

theorem printable_members : ∀ s : Shape, ∀ m ∈ s.members, Printable m.2
  | .node n r? t cs => by
      have hplans : Printable (.array (documents cs)) :=
        printableItems_iff.2 (printable_documents cs)
      have hrelations : ∀ names : List String, Printable (.array (names.map ofString)) := by
        intro names
        refine printableItems_iff.2 fun v hv => ?_
        obtain ⟨s, -, rfl⟩ := List.mem_map.1 hv
        exact printable_ofString s
      simp only [members, List.forall_mem_append]
      refine ⟨⟨⟨⟨?reference, ?nodeType⟩, printable_nameMember _ r?⟩, ?plans⟩, ?relation⟩
      case reference => cases t <;> simp [printable_ofString]
      case nodeType => simp [printable_ofString]
      case plans => cases cs <;> simp [hplans]
      case relation =>
        cases t with
        | relation name? reference => exact printable_nameMember _ name?
        | relations references => simp [hrelations]
        | nothing | index name => simp

theorem printable_documents : ∀ ss : List Shape, ∀ v ∈ documents ss, Printable v
  | [], _, h => by cases h
  | s :: ss, v, h => by
      rcases List.mem_cons.1 h with rfl | h
      · exact printable_record.2 (printable_members s)
      · exact printable_documents ss v h

end

/-- The text of a document tells the shape, whatever the names in it are. -/
theorem render_document_inj {s t : Shape} : s.document.render = t.document.render ↔ s = t := by
  constructor
  · intro h
    have hprintable : ∀ s : Shape, Printable s.document := by
      intro s
      rw [document, printable_record]
      simpa using printable_record.2 (printable_members s)
    exact document_inj (render_inj (hprintable s) (hprintable t) h)
  · rintro rfl
    rfl

end Shape

/-- The text that the id of a plan is a hash of. -/
def shapeText (table : RangeTable) (p : Plan) : Except BadIndex String :=
  (shape table p).map fun s => s.document.render

theorem shapeText_eq_ok {table : RangeTable} {p : Plan} {x : String}
    (h : shapeText table p = .ok x) :
    ∃ s, shape table p = .ok s ∧ s.document.render = x := by
  rw [shapeText] at h
  exact map_eq_ok.1 h

end Advice

end PlanFeedback
