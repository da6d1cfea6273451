import Treescript.Proofs.DocumentNodes
import Treescript.Proofs.MovedDocuments
import Treescript.Proofs.RespelledTrees

/-!
# Recast documents

Documents that differ in the words of their names, and in what the arms of conditionals call
themselves, are read as trees that differ in the words of names only. Nothing else depends on these
words. In particular the type of an arm leaves no trace, and no word is refused as a name but the
empty one.
-/

namespace Treescript

namespace Document

open List (Forall₂)

/-- The token that is made of a name. -/
def nameToken? (line : Int) : Document → Option Token
  | .text s => if s = "" then none else some ⟨.identifier, s, line, .null⟩
  | .int i => some ⟨.int, toString i.toInt, line, .int i⟩
  | _ => none

theorem Opened.run_name_eq_ok {d : Document} (n : Opened d) (key : String) {line line' : Int}
    {t : Token} :
    (n.name key).run line = .ok (t, line') ↔
      nameToken? line (under n.fields key) = some t ∧ line' = line := by
  have htoken : ∀ (kind : TokenKind) (word : String) (literal : Literal),
      (token kind word literal).run line = .ok (t, line') ↔
        some ⟨kind, word, line, literal⟩ = some t ∧ line' = line := by
    intro kind word literal
    constructor
    · rintro ⟨⟩
      exact ⟨rfl, rfl⟩
    · rintro ⟨⟨⟩, rfl⟩
      rfl
  have hthrow : ∀ i : Invalid, (throw i : Reading Token).run line = .ok (t, line') ↔
      none = some t ∧ line' = line := by
    intro i
    constructor
    · rintro ⟨⟩
    · rintro ⟨⟨⟩, -⟩
  rw [name]
  obtain ⟨hfield, hunder⟩ | ⟨⟨c, hlt⟩, hfield, hunder, hnull⟩ := n.field?_cases key
  · rw [hfield, hunder]
    exact hthrow _
  · rw [hfield, ← hunder]
    cases c with
    | text s =>
      by_cases hs : s = ""
      · simp only [nameToken?, if_pos hs]
        exact hthrow _
      · simp only [nameToken?, if_neg hs]
        exact htoken _ _ _
    | int i => exact htoken _ _ _
    | _ => exact hthrow _

section Recast

variable (σ : String → String)

/-- What is a name stays one and is respelled. -/
def NameRecast (d d' : Document) : Prop :=
  ∀ line t, nameToken? line d = some t → nameToken? line d' = some (t.respelled σ)

/-- What is a word stays one and is respelled. -/
def WordRecast (d d' : Document) : Prop :=
  ∀ s, s ≠ "" → d = .text s → d' = .text (σ s) ∧ σ s ≠ ""

/-- In a list, words stay words and are respelled. -/
inductive WordsRecast : Document → Document → Prop
  | list {ds ds' : List Document} (h : Forall₂ (WordRecast σ) ds ds') :
    WordsRecast (.list ds) (.list ds')
  | other {d d' : Document} (h : ∀ ds, d ≠ .list ds) (hnull : d = .null → d' = .null) :
    WordsRecast d d'

/-- The second document has the names of the first one respelled. Where the documents are arms of a
conditional, or lists of arms, the second one may have any type there. -/
inductive Recast : Bool → Document → Document → Prop
  | scalar {arm : Bool} {d : Document} (h : d.IsScalar) : Recast arm d d
  | list {ds ds' : List Document} (h : Forall₂ (Recast false) ds ds') :
    Recast false (.list ds) (.list ds')
  | arms {ds ds' : List Document} (h : Forall₂ (Recast true) ds ds') :
    Recast true (.list ds) (.list ds')
  | mapping {arm : Bool} {fields fields' : List (String × Document)}
    (type : (∀ implied, typeWord implied fields' = typeWord implied fields) ∨
      arm = true ∧ typeWord (some "Or") fields' ≠ "")
    (line : ∀ line, lineOf fields' line = lineOf fields line)
    (name : NameRecast σ (under fields "name") (under fields' "name"))
    (words : ∀ key ∈ ["params", "elements"], WordsRecast σ (under fields key) (under fields' key))
    (others : ∀ key, key ∉ ["type", "line", "name", "params", "elements"] →
      Recast (key == "ors") (under fields key) (under fields' key)) :
    Recast arm (.mapping fields) (.mapping fields')

end Recast

/-- Where the first reading succeeds, so does the second, on the same lines and with a related
result. -/
def Keeps {α β : Type} (R : α → β → Prop) (r : Reading α) (r' : Reading β) : Prop :=
  ∀ line a line', r.run line = .ok (a, line') → ∃ b, r'.run line = .ok (b, line') ∧ R a b

namespace Keeps

variable {α β γ δ : Type} {R : α → β → Prop} {S : γ → δ → Prop} {r : Reading α} {r' : Reading β}

protected theorem pure {a : α} {b : β} (h : R a b) : Keeps R (pure a) (pure b) := by
  rintro line _ _ ⟨⟩
  exact ⟨b, rfl, h⟩

/-- Nothing is promised about what a refused document is recast as. -/
protected theorem throw (i : Invalid) (r' : Reading β) : Keeps R (throw i) r' := by
  rintro line _ _ ⟨⟩

protected theorem refl (r : Reading α) : Keeps (fun a b => b = a) r r :=
  fun _ a _ h => ⟨a, h, rfl⟩

protected theorem bind {k : α → Reading γ} {k' : β → Reading δ} (h : Keeps R r r')
    (hk : ∀ a b, R a b → Keeps S (k a) (k' b)) : Keeps S (r >>= k) (r' >>= k') := by
  intro line c line' hrun
  rw [StateT.run_bind] at hrun ⊢
  cases hr : r.run line with
  | error i =>
    rw [hr] at hrun
    cases hrun
  | ok result =>
    rw [hr] at hrun
    obtain ⟨b, hb, hR⟩ := h line result.1 result.2 hr
    rw [hb]
    exact hk result.1 b hR result.2 c line' hrun

protected theorem map {f : α → γ} {f' : β → δ} (h : Keeps R r r')
    (hf : ∀ a b, R a b → S (f a) (f' b)) : Keeps S (f <$> r) (f' <$> r') := by
  rw [map_eq_pure_bind, map_eq_pure_bind]
  exact h.bind fun a b hab => .pure (hf a b hab)

/-- A check before the rest, which the second reading passes if the first one does. -/
theorem guarded {c c' : Prop} [Decidable c] [Decidable c'] {i i' : Invalid}
    {k : Unit → Reading γ} {k' : Unit → Reading δ} (hc : ¬c → ¬c') (h : Keeps S (k ()) (k' ())) :
    Keeps S (if c then throw i >>= k else k ()) (if c' then throw i' >>= k' else k' ()) := by
  by_cases hcheck : c
  · rw [if_pos hcheck]
    rintro line _ _ ⟨⟩
  · rwa [if_neg hcheck, if_neg (hc hcheck)]

end Keeps

section Fields

variable {σ : String → String} {d d' : Document}

/-- The node has the fields of the other one, with names respelled. -/
structure Opened.Recast (σ : String → String) (n : Opened d) (n' : Opened d') : Prop where
  named : NameRecast σ (under n.fields "name") (under n'.fields "name")
  words : ∀ key ∈ ["params", "elements"], WordsRecast σ (under n.fields key) (under n'.fields key)
  others : ∀ key, key ∉ ["type", "line", "name", "params", "elements"] →
    Document.Recast σ (key == "ors") (under n.fields key) (under n'.fields key)

theorem openAs_keeps {arm : Bool} (h : Recast σ arm d d') {implied : Option String}
    (himplied : arm = true → implied = some "Or") (path path' : Path) :
    Keeps (fun n n' => n.Recast σ n' ∧ (arm = false → n'.type = n.type))
      (openAs implied d path) (openAs implied d' path') := by
  cases h with
  | scalar hscalar =>
    cases d with
    | list | mapping => exact hscalar.elim
    | _ => exact .throw _ _
  | list | arms => exact .throw _ _
  | @mapping _ fields fields' type line name words others =>
    rintro line₀ n line₁ hrun
    rw [run_openAs_mapping] at hrun
    rw [run_openAs_mapping]
    split at hrun
    · cases hrun
    · next hword =>
      cases hrun
      obtain htype | ⟨rfl, hword'⟩ := type
      · rw [if_neg (htype implied ▸ hword), line]
        exact ⟨_, rfl, ⟨name, words, others⟩, fun _ => htype implied⟩
      · obtain rfl := himplied rfl
        rw [if_neg hword', line]
        exact ⟨_, rfl, ⟨name, words, others⟩, fun h => absurd h (by decide)⟩

namespace Opened.Recast

variable {n : Opened d} {n' : Opened d'} (h : n.Recast σ n')
include h

theorem name : Keeps (fun t t' => t' = t.respelled σ) (n.name "name") (n'.name "name") := by
  intro line t line' hrun
  obtain ⟨ht, rfl⟩ := (n.run_name_eq_ok "name").1 hrun
  exact ⟨_, (n'.run_name_eq_ok "name").2 ⟨h.named _ t ht, rfl⟩, rfl⟩

omit h in
theorem null_iff {arm : Bool} {c c' : Document} (h : Document.Recast σ arm c c') :
    c' = .null ↔ c = .null := by
  cases h <;> simp

theorem field? {key : String} (hkey : key ∉ ["type", "line", "name", "params", "elements"]) :
    Option.Rel (fun c c' => Document.Recast σ (key == "ors") c.1 c'.1) (n.field? key)
      (n'.field? key) := by
  have hunder := h.others key hkey
  obtain ⟨hfield, hnull⟩ | ⟨c, hfield, hc, hne⟩ := n.field?_cases key
  · obtain ⟨hfield', -⟩ | ⟨c', -, hc', hne'⟩ := n'.field?_cases key
    · rw [hfield, hfield']
      exact .none
    · rw [← hc', hnull] at hunder
      exact absurd ((null_iff hunder).2 rfl) hne'
  · obtain ⟨-, hnull'⟩ | ⟨c', hfield', hc', -⟩ := n'.field?_cases key
    · rw [← hc, hnull'] at hunder
      exact absurd ((null_iff hunder).1 rfl) hne
    · rw [hfield, hfield']
      exact .some (hc ▸ hc' ▸ hunder)

theorem required {key : String} (hkey : key ∉ ["type", "line", "name", "params", "elements"]) :
    Keeps (fun c c' => Document.Recast σ (key == "ors") c.1 c'.1) (n.required key)
      (n'.required key) := by
  have hfield := h.field? hkey
  rw [Opened.required, Opened.required]
  generalize n.field? key = c, n'.field? key = c' at hfield
  cases hfield with
  | none => exact .throw _ _
  | some hc => exact .pure hc

theorem items {key : String} (hkey : key ∉ ["type", "line", "name", "params", "elements"])
    (fault fault' : Fault) :
    Keeps (fun cs cs' => Forall₂ (Document.Recast σ (key == "ors")) cs.1 cs'.1)
      (n.items key fault) (n'.items key fault') := by
  have hfield := h.field? hkey
  rw [Opened.items, Opened.items]
  generalize n.field? key = c, n'.field? key = c' at hfield
  cases hfield with
  | none => exact .pure .nil
  | @some c c' hc =>
    obtain ⟨c, hlt⟩ := c
    obtain ⟨c', hlt'⟩ := c'
    generalize (key == "ors") = arm at hc ⊢
    cases hc with
    | scalar hscalar =>
      cases c with
      | list | mapping => exact hscalar.elim
      | _ => exact .throw _ _
    | list hitems | arms hitems => exact .pure hitems
    | mapping => exact .throw _ _

omit h in
theorem nameList (key : String) {ds ds' : List Document} (hds : Forall₂ (WordRecast σ) ds ds')
    (index : Nat) :
    Keeps (fun ts ts' => ts' = ts.map (·.respelled σ)) (n.nameList key ds index)
      (n'.nameList key ds' index) := by
  induction hds generalizing index with
  | nil => exact .pure rfl
  | @cons c c' _ _ hc _ ih =>
    cases c with
    | text s =>
      rw [Opened.nameList]
      by_cases hs : s = ""
      · rw [if_pos hs]
        exact .throw _ _
      · obtain ⟨rfl, hs'⟩ := hc s hs rfl
        rw [Opened.nameList]
        refine .guarded (fun _ => hs') ?_
        have htoken : Keeps (fun t t' => t' = t.respelled σ) (token .identifier s)
            (token .identifier (σ s)) := by
          rintro line _ _ ⟨⟩
          exact ⟨_, rfl, (Token.respelled_identifier σ s line).symm⟩
        refine htoken.bind fun t t' ht => (ih _).bind fun ts ts' hts => .pure ?_
        rw [ht, hts, List.map_cons]
    | _ => exact .throw _ _

theorem names {key : String} (hkey : key ∈ ["params", "elements"]) :
    Keeps (fun ts ts' => ts' = ts.map (·.respelled σ)) (n.names key) (n'.names key) := by
  have hwords := h.words key hkey
  rw [Opened.names, Opened.names, Opened.items, Opened.items]
  obtain ⟨hfield, hunder⟩ | ⟨⟨c, hlt⟩, hfield, hunder, hnull⟩ := n.field?_cases key
  · obtain ⟨hfield', -⟩ | ⟨c', -, hunder', hnull'⟩ := n'.field?_cases key
    · rw [hfield, hfield']
      exact .pure rfl
    · rw [hunder, ← hunder'] at hwords
      cases hwords with
      | other _ hnull => exact absurd (hnull rfl) hnull'
  · rw [← hunder] at hwords
    rw [hfield]
    cases c with
    | list ds =>
      generalize hunder' : under n'.fields key = c' at hwords
      cases hwords with
      | list hds =>
        obtain ⟨-, hnull'⟩ | ⟨c', hfield', hc', -⟩ := n'.field?_cases key
        · rw [hnull'] at hunder'
          cases hunder'
        · obtain ⟨c', hlt'⟩ := c'
          obtain rfl : c' = _ := hc'.trans hunder'
          rw [hfield']
          exact nameList key hds 0
      | other hlist _ => exact absurd rfl (hlist ds)
    | null => exact absurd rfl hnull
    | _ => exact .throw _ _

theorem operator (table : String → Option Operator) (hempty : table "" = none) :
    Keeps (fun t t' => t' = t) (n.operator table) (n'.operator table) := by
  have hfield := h.field? (show "operator" ∉ _ by decide)
  rw [Opened.operator, Opened.operator]
  generalize n.field? "operator" = c, n'.field? "operator" = c' at hfield
  cases hfield with
  | none =>
    simp only [hempty]
    exact .throw _ _
  | @some c c' hc =>
    obtain ⟨c, hlt⟩ := c
    obtain ⟨c', hlt'⟩ := c'
    cases hc with
    | list | mapping =>
      simp only [hempty]
      exact .throw _ _
    | scalar hscalar =>
      cases c with
      | list | mapping => exact hscalar.elim
      | text word =>
        dsimp only
        cases table word with
        | none => exact .throw _ _
        | some o => exact .refl _
      | _ =>
        simp only [hempty]
        exact .throw _ _

theorem literal : Keeps (fun e e' => e' = e.respelled σ) n.literal n'.literal := by
  have hfield := h.field? (show "value" ∉ _ by decide)
  have hlit : ∀ (kind : TokenKind) (word : String) (l value : Literal),
      Keeps (fun e e' => e' = Expr.respelled σ e)
        (do return .literal (← token kind word l) value)
        (do return .literal (← token kind word l) value) := fun kind word l value =>
    (Keeps.refl _).bind fun t t' ht => .pure (by rw [ht, Expr.respelled])
  rw [Opened.literal, Opened.literal]
  generalize n.field? "value" = c, n'.field? "value" = c' at hfield
  cases hfield with
  | none => exact hlit _ _ _ _
  | @some c c' hc =>
    obtain ⟨c, hlt⟩ := c
    obtain ⟨c', hlt'⟩ := c'
    cases hc with
    | list | mapping => exact .throw _ _
    | scalar hscalar =>
      cases c with
      | list | mapping => exact hscalar.elim
      | bool b => cases b <;> exact hlit _ _ _ _
      | int | float | text => exact hlit _ _ _ _
      | null | natural | timestamp | keyed => exact .throw _ _

end Opened.Recast

end Fields

section Trees

variable {σ : String → String}

mutual

theorem expression_keeps {d d' : Document} (h : Recast σ false d d') (path path' : Path) :
    Keeps (fun e e' => e' = e.respelled σ) (expression d path) (expression d' path') := by
  rw [expression, expression]
  refine (openAs_keeps h nofun path path').bind fun n n' ⟨hn, htype⟩ => ?_
  rw [htype rfl]
  cases ExprType.ofName? n.type with
  | none => exact .throw _ _
  | some t =>
    cases t with
    | literal => exact hn.literal
    | «variable» => exact hn.name.bind fun t t' ht => .pure (by rw [ht, Expr.respelled])
    | parent => exact hn.name.bind fun t t' ht => .pure (by rw [ht, Expr.respelled])
    | global => exact hn.name.bind fun t t' ht => .pure (by rw [ht, Expr.respelled])
    | self => exact (Keeps.refl _).bind fun t t' ht => .pure (by rw [ht, Expr.respelled])
    | assign =>
      refine hn.name.bind fun t t' ht => ?_
      refine (hn.required (by decide)).bind fun ⟨value, hlt⟩ ⟨value', _⟩ hvalue => ?_
      exact (expression_keeps hvalue _ _).bind fun e e' he =>
        .pure (by rw [ht, he, Expr.respelled])
    | unary =>
      refine (hn.operator _ rfl).bind fun t t' ht => ?_
      refine (hn.required (by decide)).bind fun ⟨right, hlt⟩ ⟨right', _⟩ hright => ?_
      exact (expression_keeps hright _ _).bind fun e e' he =>
        .pure (by rw [ht, he, Expr.respelled])
    | binary =>
      refine (hn.operator _ rfl).bind fun t t' ht => ?_
      refine (hn.required (by decide)).bind fun ⟨left, hlt⟩ ⟨left', _⟩ hleft => ?_
      refine (expression_keeps hleft _ _).bind fun l l' hl => ?_
      refine (hn.required (by decide)).bind fun ⟨right, hlt⟩ ⟨right', _⟩ hright => ?_
      exact (expression_keeps hright _ _).bind fun r r' hr =>
        .pure (by rw [ht, hl, hr, Expr.respelled])
    | logical =>
      refine (hn.operator _ rfl).bind fun t t' ht => ?_
      refine (hn.required (by decide)).bind fun ⟨left, hlt⟩ ⟨left', _⟩ hleft => ?_
      refine (expression_keeps hleft _ _).bind fun l l' hl => ?_
      refine (hn.required (by decide)).bind fun ⟨right, hlt⟩ ⟨right', _⟩ hright => ?_
      exact (expression_keeps hright _ _).bind fun r r' hr =>
        .pure (by rw [ht, hl, hr, Expr.respelled])
    | count =>
      refine (hn.operator _ rfl).bind fun t t' ht => hn.name.bind fun x x' hx => .pure ?_
      rw [ht, hx, Expr.respelled, Expr.respelled]
    | call =>
      refine (hn.required (by decide)).bind fun ⟨callee, hlt⟩ ⟨callee', _⟩ hcallee => ?_
      refine (expression_keeps hcallee _ _).bind fun c c' hc => ?_
      refine (hn.items (by decide) _ _).bind fun ⟨args, hlt⟩ ⟨args', _⟩ hargs => ?_
      refine (expressions_keep hargs _ _ 0).bind fun es es' hes => ?_
      exact (Keeps.refl _).bind fun t t' ht => .pure (by rw [hc, hes, ht, Expr.respelled])
    | grouping =>
      refine (Keeps.refl _).bind fun t t' ht => ?_
      refine (hn.required (by decide)).bind fun ⟨inner, hlt⟩ ⟨inner', _⟩ hinner => ?_
      exact (expression_keeps hinner _ _).bind fun e e' he =>
        .pure (by rw [ht, he, Expr.respelled])
    | get =>
      refine (hn.required (by decide)).bind fun ⟨object, hlt⟩ ⟨object', _⟩ hobject => ?_
      refine (expression_keeps hobject _ _).bind fun e e' he => ?_
      exact hn.name.bind fun t t' ht => .pure (by rw [he, ht, Expr.respelled])
    | set =>
      refine (hn.required (by decide)).bind fun ⟨object, hlt⟩ ⟨object', _⟩ hobject => ?_
      refine (expression_keeps hobject _ _).bind fun e e' he => hn.name.bind fun t t' ht => ?_
      refine (hn.required (by decide)).bind fun ⟨value, hlt⟩ ⟨value', _⟩ hvalue => ?_
      exact (expression_keeps hvalue _ _).bind fun v v' hv =>
        .pure (by rw [he, ht, hv, Expr.respelled])
termination_by sizeOf d

theorem expressions_keep {ds ds' : List Document} (h : Forall₂ (Recast σ false) ds ds')
    (path path' : Path) (index : Nat) :
    Keeps (fun es es' => es' = Expr.respelledList σ es) (expressions ds path index)
      (expressions ds' path' index) := by
  match h with
  | .nil =>
    rw [expressions, expressions]
    exact .pure rfl
  | .cons hd hrest =>
    rw [expressions, expressions]
    refine (expression_keeps hd _ _).bind fun e e' he => ?_
    exact (expressions_keep hrest path path' _).bind fun es es' hes =>
      .pure (by rw [he, hes, Expr.respelledList])
termination_by sizeOf ds

end

namespace Opened.Recast

variable {d d' : Document} {n : Opened d} {n' : Opened d'} (h : n.Recast σ n')
include h

theorem requiredExpr {key : String} (hkey : key ∉ ["type", "line", "name", "params", "elements"])
    (hors : (key == "ors") = false) :
    Keeps (fun e e' => e' = e.respelled σ) (n.requiredExpr key) (n'.requiredExpr key) :=
  (h.required hkey).bind fun _ _ hc => expression_keeps (hors ▸ hc) _ _

theorem optionalExpr {key : String} (hkey : key ∉ ["type", "line", "name", "params", "elements"])
    (hors : (key == "ors") = false) :
    Keeps (fun e? e?' => e?' = e?.map (·.respelled σ)) (n.optionalExpr key)
      (n'.optionalExpr key) := by
  have hfield := h.field? hkey
  rw [hors] at hfield
  rw [Opened.optionalExpr, Opened.optionalExpr]
  generalize n.field? key = c, n'.field? key = c' at hfield
  cases hfield with
  | none => exact .pure rfl
  | some hc => exact (expression_keeps hc _ _).map fun e e' he => congrArg some he

theorem definition :
    Keeps (fun x x' => x' = x.respelled σ) n.definition n'.definition := by
  refine (Keeps.refl _).bind fun t t' ht => h.name.bind fun x x' hx => ?_
  exact (h.optionalExpr (by decide) rfl).bind fun e e' he =>
    .pure (by rw [ht, hx, he, Definition.respelled])

end Opened.Recast

theorem members_keep (path path' : Path) {ds ds' : List Document}
    (h : Forall₂ (Recast σ false) ds ds') (index : Nat) :
    Keeps (fun xs xs' => xs' = xs.map (·.respelled σ)) (members path ds index)
      (members path' ds' index) := by
  induction h generalizing index with
  | nil => exact .pure rfl
  | cons hd _ ih =>
    refine (openAs_keeps hd nofun _ _).bind fun n n' ⟨hn, htype⟩ => ?_
    refine .guarded (fun hdef => htype rfl ▸ hdef) (hn.definition.bind fun x x' hx => ?_)
    exact (ih _).bind fun xs xs' hxs => .pure (by rw [hx, hxs, List.map_cons])

mutual

theorem statement_keeps {d d' : Document} (h : Recast σ false d d') (path path' : Path) :
    Keeps (fun s s' => s' = s.respelled σ) (statement d path) (statement d' path') := by
  rw [statement, statement]
  refine (openAs_keeps h nofun path path').bind fun n n' ⟨hn, htype⟩ => ?_
  rw [htype rfl]
  cases StmtType.ofName? n.type with
  | none => exact .throw _ _
  | some t =>
    cases t with
    | expression =>
      refine (Keeps.refl _).bind fun row row' hrow => ?_
      refine (hn.requiredExpr (by decide) rfl).bind fun e e' he => .pure ?_
      rw [hrow, he, Stmt.respelled, Token.following, if_pos rfl]
    | print =>
      refine (Keeps.refl _).bind fun t t' ht => ?_
      exact (hn.requiredExpr (by decide) rfl).bind fun e e' he =>
        .pure (by rw [ht, he, Stmt.respelled])
    | define => exact hn.definition.map fun x x' hx => by rw [hx, Stmt.respelled]
    | block =>
      refine (Keeps.refl _).bind fun t t' ht => ?_
      refine (hn.items (by decide) _ _).bind fun ⟨body, hlt⟩ ⟨body', _⟩ hbody => ?_
      exact (statements_keep hbody _ _ 0).bind fun ss ss' hss =>
        .pure (by rw [ht, hss, Stmt.respelled])
    | operation => exact (operation_keeps hn).map fun o o' ho => by rw [ho, Stmt.respelled]
    | conditional =>
      refine (Keeps.refl _).bind fun t t' ht => ?_
      refine (hn.requiredExpr (by decide) rfl).bind fun c c' hc => ?_
      refine (hn.required (by decide)).bind fun ⟨branch, hlt⟩ ⟨branch', _⟩ hbranch => ?_
      refine (statement_keeps hbranch _ _).bind fun b b' hb => ?_
      refine (hn.items (by decide) _ _).bind fun ⟨ors, hlt⟩ ⟨ors', _⟩ hors => ?_
      refine (arms_keep hors _ _ 0).bind fun as as' has => ?_
      have hfield := hn.field? (show "else" ∉ _ by decide)
      generalize n.field? "else" = o, n'.field? "else" = o' at hfield
      cases hfield with
      | none => exact .pure (by rw [ht, hc, hb, has, Stmt.respelled])
      | @some o o' ho =>
        obtain ⟨o, hlt⟩ := o
        exact (statement_keeps ho _ _).bind fun s s' hs =>
          .pure (by rw [ht, hc, hb, has, hs, Stmt.respelled])
    | loop =>
      refine (Keeps.refl _).bind fun t t' ht => ?_
      refine (hn.requiredExpr (by decide) rfl).bind fun c c' hc => ?_
      refine (hn.required (by decide)).bind fun ⟨body, hlt⟩ ⟨body', _⟩ hbody => ?_
      exact (statement_keeps hbody _ _).bind fun b b' hb =>
        .pure (by rw [ht, hc, hb, Stmt.respelled])
    | «return» =>
      refine (Keeps.refl _).bind fun t t' ht => ?_
      exact (hn.optionalExpr (by decide) rfl).bind fun e e' he =>
        .pure (by rw [ht, he, Stmt.respelled])
    | object =>
      refine (Keeps.refl _).bind fun t t' ht => hn.name.bind fun x x' hx => ?_
      refine (hn.items (by decide) _ _).bind fun ⟨ms, hlt⟩ ⟨ms', _⟩ hms => ?_
      exact (methods_keep hms _ _ 0).bind fun os os' hos =>
        .pure (by rw [ht, hx, hos, Stmt.respelled])
    | «enum» =>
      refine (Keeps.refl _).bind fun t t' ht => hn.name.bind fun x x' hx => ?_
      exact (hn.names (by decide)).bind fun ts ts' hts =>
        .pure (by rw [ht, hx, hts, Stmt.respelled])
    | form =>
      refine (Keeps.refl _).bind fun t t' ht => hn.name.bind fun x x' hx => ?_
      refine (hn.items (by decide) _ _).bind fun ⟨ms, hlt⟩ ⟨ms', _⟩ hms => ?_
      exact (members_keep _ _ hms 0).bind fun xs xs' hxs =>
        .pure (by rw [ht, hx, hxs, Stmt.respelled])
termination_by 2 * sizeOf d + 1
decreasing_by all_goals omega

theorem operation_keeps {d d' : Document} {n : Opened d} {n' : Opened d'} (hn : n.Recast σ n') :
    Keeps (fun o o' => o' = o.respelled σ) (operation d n) (operation d' n') := by
  rw [operation, operation]
  refine (Keeps.refl _).bind fun t t' ht => hn.name.bind fun x x' hx => ?_
  refine (hn.names (by decide)).bind fun ts ts' hts => ?_
  refine (hn.items (by decide) _ _).bind fun ⟨body, hlt⟩ ⟨body', _⟩ hbody => ?_
  exact (statements_keep hbody _ _ 0).bind fun ss ss' hss =>
    .pure (by rw [ht, hx, hts, hss, Operation.respelled])
termination_by 2 * sizeOf d
decreasing_by all_goals omega

theorem statements_keep {ds ds' : List Document} (h : Forall₂ (Recast σ false) ds ds')
    (path path' : Path) (index : Nat) :
    Keeps (fun ss ss' => ss' = Stmt.respelledList σ ss) (statements ds path index)
      (statements ds' path' index) := by
  match h with
  | .nil =>
    rw [statements, statements]
    exact .pure rfl
  | .cons hd hrest =>
    rw [statements, statements]
    refine (statement_keeps hd _ _).bind fun s s' hs => ?_
    exact (statements_keep hrest path path' _).bind fun ss ss' hss =>
      .pure (by rw [hs, hss, Stmt.respelledList])
termination_by 2 * sizeOf ds
decreasing_by all_goals (rw [List.cons.sizeOf_spec]; omega)

theorem arms_keep {ds ds' : List Document} (h : Forall₂ (Recast σ true) ds ds')
    (path path' : Path) (index : Nat) :
    Keeps (fun as as' => as' = Arm.respelledList σ as) (arms ds path index)
      (arms ds' path' index) := by
  match h with
  | .nil =>
    rw [arms, arms]
    exact .pure rfl
  | .cons hd hrest =>
    rw [arms, arms]
    -- the types of the two arms may differ, and are not looked at any more
    refine (openAs_keeps hd (fun _ => rfl) _ _).bind fun n n' ⟨hn, _⟩ => ?_
    refine (Keeps.refl _).bind fun t t' ht => ?_
    refine (hn.requiredExpr (by decide) rfl).bind fun c c' hc => ?_
    refine (hn.required (by decide)).bind fun ⟨branch, hlt⟩ ⟨branch', _⟩ hbranch => ?_
    refine (statement_keeps hbranch _ _).bind fun b b' hb => ?_
    exact (arms_keep hrest path path' _).bind fun as as' has =>
      .pure (by rw [ht, hc, hb, has, Arm.respelledList, Arm.respelled])
termination_by 2 * sizeOf ds
decreasing_by all_goals (rw [List.cons.sizeOf_spec]; omega)

theorem methods_keep {ds ds' : List Document} (h : Forall₂ (Recast σ false) ds ds')
    (path path' : Path) (index : Nat) :
    Keeps (fun os os' => os' = Operation.respelledList σ os) (methods ds path index)
      (methods ds' path' index) := by
  match h with
  | .nil =>
    rw [methods, methods]
    exact .pure rfl
  | .cons hd hrest =>
    rw [methods, methods]
    refine (openAs_keeps hd nofun _ _).bind fun n n' ⟨hn, htype⟩ => ?_
    refine .guarded (fun hop => htype rfl ▸ hop) ((operation_keeps hn).bind fun o o' ho => ?_)
    exact (methods_keep hrest path path' _).bind fun os os' hos =>
      .pure (by rw [ho, hos, Operation.respelledList])
termination_by 2 * sizeOf ds
decreasing_by all_goals (rw [List.cons.sizeOf_spec]; omega)

end

/-- A program whose documents are recast is respelled. -/
theorem program_recast {ds ds' : List Document} (h : Forall₂ (Recast σ false) ds ds')
    {p : Program} (hp : program ds = .ok p) : program ds' = .ok (p.respelled σ) := by
  rw [program, StateT.run'_eq] at hp ⊢
  cases hrun : (statements ds [.key "statements"] 0).run 1 with
  | error i =>
    rw [hrun] at hp
    cases hp
  | ok result =>
    rw [hrun] at hp
    cases hp
    obtain ⟨ss, hss, rfl⟩ := statements_keep h [.key "statements"] [.key "statements"] 0 1
      result.1 result.2 hrun
    rw [hss]
    rfl

end Trees

end Document

end Treescript
