import Treescript.Proofs.FirstFaults
import Treescript.Proofs.RecastDocuments

/-!
# Types that positions fix

A method is an operation, a member of a form is a definition, and an arm of a conditional is an arm:
these nodes may leave out their type. A method or a member that gives itself another type is
refused. An arm may give itself any word for a type, and it makes no difference to what is read.
-/

namespace Treescript

namespace Document

open List (Forall₂)

/-- The documents differ in nothing but in the words that arms of conditionals give as their types,
if they give one. The flag says that the documents are arms, or lists of arms. -/
inductive SameButArms : Bool → Document → Document → Prop
  | scalar {arm : Bool} {d : Document} (h : d.IsScalar) : SameButArms arm d d
  | list {ds ds' : List Document} (h : Forall₂ (SameButArms false) ds ds') :
    SameButArms false (.list ds) (.list ds')
  | arms {ds ds' : List Document} (h : Forall₂ (SameButArms true) ds ds') :
    SameButArms true (.list ds) (.list ds')
  | mapping {arm : Bool} {fields fields' : List (String × Document)}
    (type : fields'.lookup "type" = fields.lookup "type" ∨
      arm = true ∧ typeWord (some "Or") fields ≠ "" ∧ typeWord (some "Or") fields' ≠ "")
    (ors : Option.Rel (SameButArms true) (fields.lookup "ors") (fields'.lookup "ors"))
    (others : ∀ key, key ≠ "type" → key ≠ "ors" →
      Option.Rel (SameButArms false) (fields.lookup key) (fields'.lookup key)) :
    SameButArms arm (.mapping fields) (.mapping fields')

namespace Recast

theorem nameRecast {c c' : Document} (h : Recast id false c c') : NameRecast id c c' := by
  intro line t ht
  cases h with
  | scalar => rwa [Token.respelled_id]
  | list | mapping => cases ht

theorem lineOf_eq {fields fields' : List (String × Document)}
    (h : Option.Rel (SameButArms false) (fields.lookup "line") (fields'.lookup "line"))
    (line : Int) : lineOf fields' line = lineOf fields line := by
  rw [lineOf, lineOf]
  generalize fields.lookup "line" = c, fields'.lookup "line" = c' at h
  cases h with
  | none => rfl
  | some h => cases h <;> rfl

theorem wordsRecast {c c' : Document} (h : Recast id false c c') : WordsRecast id c c' := by
  cases h with
  | scalar hscalar => exact .other (by rintro ds rfl; exact hscalar) id
  | mapping => exact .other nofun nofun
  | list hds =>
    refine .list (hds.imp fun d d' hd s hs hword => ?_)
    subst hword
    cases hd with
    | scalar => exact ⟨rfl, hs⟩

end Recast

namespace SameButArms

mutual

theorem refl (arm : Bool) (d : Document) : SameButArms arm d d := by
  match arm, d with
  | _, .null | _, .bool _ | _, .int _ | _, .natural _ | _, .float _ | _, .text _ | _, .timestamp
  | _, .keyed => exact .scalar trivial
  | false, .list ds => exact .list (forall₂_refl false ds)
  | true, .list ds => exact .arms (forall₂_refl true ds)
  | _, .mapping fields =>
    have hfield : ∀ (arm : Bool) (key : String),
        Option.Rel (SameButArms arm) (fields.lookup key) (fields.lookup key) := by
      intro arm key
      cases hc : fields.lookup key with
      | none => exact .none
      | some c =>
        have hlt : sizeOf c < sizeOf (Document.mapping fields) := sizeOf_lt_of_lookup hc
        exact .some (refl arm c)
    exact .mapping (.inl rfl) (hfield true "ors") fun key _ _ => hfield false key
termination_by sizeOf d
decreasing_by all_goals simp_all

theorem forall₂_refl (arm : Bool) (ds : List Document) : Forall₂ (SameButArms arm) ds ds := by
  match ds with
  | [] => exact .nil
  | d :: ds => exact .cons (refl arm d) (forall₂_refl arm ds)
termination_by sizeOf ds

end

theorem lookup_refl {arm : Bool} (fields : List (String × Document)) (key : String) :
    Option.Rel (SameButArms arm) (fields.lookup key) (fields.lookup key) := by
  cases fields.lookup key with
  | none => exact .none
  | some c => exact .some (refl arm c)

mutual

/-- Each of the documents is the other one, recast. -/
theorem recast {arm : Bool} {d d' : Document} (h : SameButArms arm d d') :
    Recast id arm d d' ∧ Recast id arm d' d := by
  match h with
  | .scalar hscalar => exact ⟨.scalar hscalar, .scalar hscalar⟩
  | .list hds => exact ⟨.list (forall₂_recast hds).1, .list (forall₂_recast hds).2⟩
  | .arms hds => exact ⟨.arms (forall₂_recast hds).1, .arms (forall₂_recast hds).2⟩
  | @mapping _ fields fields' type ors others =>
    have hunder : ∀ {arm : Bool} (key : String),
        Option.Rel (SameButArms arm) (fields.lookup key) (fields'.lookup key) →
        Recast id arm (under fields key) (under fields' key) ∧
          Recast id arm (under fields' key) (under fields key) := by
      intro arm key hrel
      rw [under, under]
      generalize fields'.lookup key = c' at hrel
      cases hc : fields.lookup key with
      | none =>
        rw [hc] at hrel
        cases hrel
        exact ⟨.scalar trivial, .scalar trivial⟩
      | some c =>
        rw [hc] at hrel
        cases hrel with
        | some h =>
          have hlt : sizeOf c < sizeOf (Document.mapping fields) := sizeOf_lt_of_lookup hc
          exact recast h
    have hother : ∀ key, key ∉ ["type", "ors"] →
        Recast id false (under fields key) (under fields' key) ∧
          Recast id false (under fields' key) (under fields key) := by
      intro key hkey
      rw [List.mem_cons, List.mem_singleton, not_or] at hkey
      exact hunder key (others key hkey.1 hkey.2)
    have hwords : ∀ key ∈ ["params", "elements"], key ∉ ["type", "ors"] := by decide
    have hline := Recast.lineOf_eq (others "line" (by decide) (by decide))
    -- only the documents under one key are arms
    have hall : ∀ key, key ∉ ["type", "line", "name", "params", "elements"] →
        Recast id (key == "ors") (under fields key) (under fields' key) ∧
          Recast id (key == "ors") (under fields' key) (under fields key) := by
      intro key hkey
      by_cases hors : key = "ors"
      · subst hors
        exact hunder "ors" ors
      · rw [beq_false_of_ne hors]
        exact hother key (by simp_all)
    have htype : fields'.lookup "type" = fields.lookup "type" →
        ∀ implied, typeWord implied fields' = typeWord implied fields := by
      intro h implied
      rw [typeWord, typeWord, h]
    exact ⟨.mapping (type.imp htype fun h => ⟨h.1, h.2.2⟩) hline
        (hother "name" (by decide)).1.nameRecast
        (fun key hkey => (hother key (hwords key hkey)).1.wordsRecast)
        fun key hkey => (hall key hkey).1,
      .mapping (type.imp (fun h implied => (htype h implied).symm) fun h => ⟨h.1, h.2.1⟩)
        (fun line => (hline line).symm)
        (hother "name" (by decide)).2.nameRecast
        (fun key hkey => (hother key (hwords key hkey)).2.wordsRecast)
        fun key hkey => (hall key hkey).2⟩
termination_by sizeOf d
decreasing_by all_goals simp_all

theorem forall₂_recast {arm : Bool} {ds ds' : List Document}
    (h : Forall₂ (SameButArms arm) ds ds') :
    Forall₂ (Recast id arm) ds ds' ∧ Forall₂ (Recast id arm) ds' ds := by
  match h with
  | .nil => exact ⟨.nil, .nil⟩
  | .cons hd hrest =>
    obtain ⟨hrest₁, hrest₂⟩ := forall₂_recast hrest
    obtain ⟨hd₁, hd₂⟩ := hd.recast
    exact ⟨.cons hd₁ hrest₁, .cons hd₂ hrest₂⟩
termination_by sizeOf ds

end

end SameButArms

/-- The type that a node gives itself does not fit its position. -/
def Position.Misfit : Position → Document → Prop
  | .method, type => type ≠ .text "Op"
  | .member, type => type ≠ .text "Def"
  | .arm, type => ¬IsWord type
  | .expression, _ | .statement, _ => False

theorem Position.Valid.not_misfit {p : Position} {fields : List (String × Document)}
    {type : Document} (h : p.Valid (.mapping fields)) (htype : fields.lookup "type" = some type) :
    ¬p.Misfit type := by
  cases p with
  | expression | statement => exact id
  | arm =>
    obtain ⟨hnone | ⟨word, hword, hsome⟩, -, -⟩ := h
    · cases hnone.symm.trans htype
    · cases hsome.symm.trans htype
      exact not_not_intro (.text hword)
  | method =>
    obtain ⟨hnone | hsome, -⟩ := h
    · cases hnone.symm.trans htype
    · cases hsome.symm.trans htype
      exact not_not_intro rfl
  | member =>
    obtain ⟨hnone | hsome, -⟩ := h
    · cases hnone.symm.trans htype
    · cases hsome.symm.trans htype
      exact not_not_intro rfl

/-- The nodes of a program that is read are all as they should be. -/
theorem valid_of_mem_programNodes {ds : List Document} {p : Program} (h : program ds = .ok p) :
    ∀ n ∈ programNodes ds, n.Valid := by
  have hvalid : ∀ d ∈ ds, d.IsStatement := by
    rw [← statements_accept ds [.key "statements"] 0 1]
    rw [program, StateT.run'_eq] at h
    cases hrun : (statements ds [.key "statements"] 0).run 1 with
    | error i =>
      rw [hrun] at h
      cases h
    | ok result => exact ⟨result.1, result.2, rfl⟩
  intro n hn
  obtain ⟨s, hs, hn⟩ := List.mem_flatMap.1 hn
  obtain ⟨i, hi, rfl⟩ := List.mem_mapIdx.1 hs
  exact Spot.Valid.node (s := statementAt i ds[i]) (hvalid _ (List.getElem_mem hi)) n hn

/-- At any depth, a method or a member of a form that gives itself another type than the one of its
position makes the reader refuse the program, and so does an arm that gives itself a type that is
not a word. Other than that the type of an arm is not looked at: programs that differ in nothing but
the words that their arms give as types are both read as the same tree or both refused. -/
theorem program_checks_types (ds : List Document) :
    (∀ n ∈ programNodes ds, ∀ fields type, n.document = .mapping fields →
      fields.lookup "type" = some type → n.position.Misfit type → ∃ i, program ds = .error i) ∧
    ∀ ds' p, Forall₂ (SameButArms false) ds ds' → (program ds = .ok p ↔ program ds' = .ok p) := by
  constructor
  · intro n hn fields type hdocument htype hmisfit
    cases hp : program ds with
    | error i => exact ⟨i, rfl⟩
    | ok p =>
      have hvalid := valid_of_mem_programNodes hp n hn
      rw [Spot.Valid, hdocument] at hvalid
      exact absurd hmisfit (hvalid.not_misfit htype)
  · intro ds' p h
    obtain ⟨hrecast, hrecast'⟩ := SameButArms.forall₂_recast h
    constructor
    · intro hp
      rw [program_recast hrecast hp, Program.respelled_id]
    · intro hp
      rw [program_recast hrecast' hp, Program.respelled_id]

/-- A conditional with one arm, which gives itself a type or none. -/
def oneArm (type : List (String × Document)) : Document :=
  .mapping [("ors", .list [.mapping (type ++ [("condition", .mapping [("type", .text "Literal")]),
      ("branch", .mapping [("type", .text "Block")])])]),
    ("type", .text "When"), ("condition", .mapping [("type", .text "Literal")]),
    ("then", .mapping [("type", .text "Block")])]

theorem mistyped_arm_is_read :
    (∃ p, program [oneArm []] = .ok p ∧ program [oneArm [("type", .text "Def")]] = .ok p) ∧
      ∃ i, program [oneArm [("type", .int 5)]] = .error i := by
  constructor
  · have harm : Forall₂ (SameButArms false) [oneArm []] [oneArm [("type", .text "Def")]] := by
      have hskip : ∀ {key x : String} {c : Document} {rest : List (String × Document)}, key ≠ x →
          ((x, c) :: rest).lookup key = rest.lookup key := by
        intro key x c rest hkey
        rw [List.lookup_cons, beq_false_of_ne hkey]
      refine .cons (.mapping (.inl rfl) (.some (.arms (.cons ?_ .nil))) ?_) .nil
      · refine .mapping (.inr ⟨rfl, by decide, by decide⟩) .none fun key htype _ => ?_
        rw [List.singleton_append, hskip htype]
        exact SameButArms.lookup_refl _ _
      · intro key _ hors
        rw [hskip hors, hskip hors]
        exact SameButArms.lookup_refl _ _
    let word (k : Keyword) : Token := ⟨.keyword k, k.spelling, 1, .null⟩
    let none : Expr := .literal (word .none) .null
    let block : Stmt := .block ⟨.mark .bodyStart, "|", 1, .null⟩ []
    let p : Program := [.conditional (word .when) none block [⟨word .or, none, block⟩] .none]
    have hp : program [oneArm []] = .ok p := by with_unfolding_all rfl
    exact ⟨p, hp, ((program_checks_types _).2 _ p harm).1 hp⟩
  · let s := statementAt 0 (oneArm [("type", .int 5)])
    let n : Spot := ⟨s.path ++ [.key "ors", .index 0], .arm, .mapping [("type", .int 5),
      ("condition", .mapping [("type", .text "Literal")]),
      ("branch", .mapping [("type", .text "Block")])]⟩
    have hchild : n ∈ s.children := Spot.mem_children.2 ⟨_, _, rfl, rfl, .items "ors" .arm,
      .tail _ (.tail _ (.head _)), List.mem_singleton.2 rfl⟩
    have hn : n ∈ programNodes [oneArm [("type", .int 5)]] := List.mem_flatMap.2
      ⟨s, .head _, Spot.mem_nodes.2 (.inr ⟨n, hchild, Spot.mem_nodes.2 (.inl rfl)⟩)⟩
    exact (program_checks_types _).1 n hn _ (.int 5) rfl rfl nofun

end Document

end Treescript
