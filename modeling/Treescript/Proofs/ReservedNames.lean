import Mathlib.Logic.Equiv.Basic
import Treescript.Proofs.RecastDocuments

/-!
# Reserved words as names

Neither the reader nor resolution compares a name with the reserved words. So a name that a document
introduces can be exchanged for any reserved word, all over the document: the new document is read
as well, it breaks the same rules, and it introduces the reserved word in place of the name.
-/

namespace Treescript

namespace Document

open List (Forall₂)

/-- A name under another word. A number that is a name and gets another word becomes a text. -/
def renamedName (σ : String → String) : Document → Document
  | .text s => .text (σ s)
  | .int i =>
    if σ (toString i.toInt) = toString i.toInt then .int i else .text (σ (toString i.toInt))
  | d => d

def renamedWord (σ : String → String) : Document → Document
  | .text s => .text (σ s)
  | d => d

def renamedWords (σ : String → String) : Document → Document
  | .list ds => .list (ds.map (renamedWord σ))
  | d => d

mutual

/-- The document with every name in it under another word. -/
def renamed (σ : String → String) : Document → Document
  | .list ds => .list (renamedList σ ds)
  | .mapping fields => .mapping (renamedFields σ fields)
  | d => d

def renamedList (σ : String → String) : List Document → List Document
  | [] => []
  | d :: ds => d.renamed σ :: renamedList σ ds

def renamedFields (σ : String → String) : List (String × Document) → List (String × Document)
  | [] => []
  | (key, d) :: rest =>
    (key,
      if key = "name" then d.renamedName σ
      else if key ∈ ["params", "elements"] then d.renamedWords σ
      else d.renamed σ) :: renamedFields σ rest

end

/-- What becomes of a field. -/
def renamedUnder (σ : String → String) (key : String) (d : Document) : Document :=
  if key = "name" then d.renamedName σ
  else if key ∈ ["params", "elements"] then d.renamedWords σ
  else d.renamed σ

section Renamed

variable (σ : String → String)

theorem lookup_renamedFields (fields : List (String × Document)) (key : String) :
    (renamedFields σ fields).lookup key = (fields.lookup key).map (renamedUnder σ key) := by
  induction fields with
  | nil => rfl
  | cons field rest ih =>
    obtain ⟨k, d⟩ := field
    rw [renamedFields, List.lookup_cons, List.lookup_cons, ih]
    by_cases hkey : key = k
    · subst hkey
      rw [beq_self_eq_true]
      rfl
    · rw [beq_false_of_ne hkey]

theorem under_renamedFields (fields : List (String × Document)) (key : String) :
    under (renamedFields σ fields) key = renamedUnder σ key (under fields key) := by
  rw [under, under, lookup_renamedFields]
  cases fields.lookup key with
  | some d => rfl
  | none =>
    rw [renamedUnder]
    split_ifs <;> simp [renamedName, renamedWords, renamed]

theorem typeWord_renamedFields (implied : Option String) (fields : List (String × Document)) :
    typeWord implied (renamedFields σ fields) = typeWord implied fields := by
  have hunder : renamedUnder σ "type" = renamed σ := rfl
  rw [typeWord, typeWord, lookup_renamedFields, hunder]
  cases fields.lookup "type" with
  | none => rfl
  | some d => cases d <;> simp [renamed]

theorem lineOf_renamedFields (fields : List (String × Document)) (line : Int) :
    lineOf (renamedFields σ fields) line = lineOf fields line := by
  have hunder : renamedUnder σ "line" = renamed σ := rfl
  rw [lineOf, lineOf, lookup_renamedFields, hunder]
  cases fields.lookup "line" with
  | none => rfl
  | some d => cases d <;> simp [renamed]

variable {σ}

/-- The fields of a node, with names respelled and everything else passed through `g`. -/
structure FieldsRecast (σ : String → String) (g : Document → Document)
    (fields fields' : List (String × Document)) : Prop where
  type : ∀ implied, typeWord implied fields' = typeWord implied fields
  line : ∀ line, lineOf fields' line = lineOf fields line
  name : NameRecast σ (under fields "name") (under fields' "name")
  words : ∀ key ∈ ["params", "elements"], WordsRecast σ (under fields key) (under fields' key)
  others : ∀ key, key ∉ ["type", "line", "name", "params", "elements"] →
    under fields' key = g (under fields key)

section Map

variable {g : Document → Document}

mutual

/-- A map over the nodes of documents that respells names recasts them. -/
theorem recast_map (hscalar : ∀ d, d.IsScalar → g d = d)
    (hlist : ∀ ds, g (.list ds) = .list (ds.map g))
    (hmapping : ∀ fields, ∃ fields', g (.mapping fields) = .mapping fields' ∧
      FieldsRecast σ g fields fields') (arm : Bool) (d : Document) : Recast σ arm d (g d) := by
  match arm, d with
  | _, .null | _, .bool _ | _, .int _ | _, .natural _ | _, .float _ | _, .text _ | _, .timestamp
  | _, .keyed =>
    rw [hscalar]
    · exact .scalar trivial
    · trivial
  | false, .list ds =>
    rw [hlist]
    exact .list (recast_mapList hscalar hlist hmapping false ds)
  | true, .list ds =>
    rw [hlist]
    exact .arms (recast_mapList hscalar hlist hmapping true ds)
  | _, .mapping fields =>
    obtain ⟨fields', hfields, h⟩ := hmapping fields
    rw [hfields]
    refine .mapping (.inl h.type) h.line h.name h.words fun key hkey => ?_
    rw [h.others key hkey]
    by_cases hnull : under fields key = .null
    · rw [hnull, hscalar .null trivial]
      exact .scalar trivial
    · have hlt := sizeOf_under_lt hnull
      exact recast_map hscalar hlist hmapping _ _
termination_by sizeOf d
decreasing_by all_goals simp_all

theorem recast_mapList (hscalar : ∀ d, d.IsScalar → g d = d)
    (hlist : ∀ ds, g (.list ds) = .list (ds.map g))
    (hmapping : ∀ fields, ∃ fields', g (.mapping fields) = .mapping fields' ∧
      FieldsRecast σ g fields fields') (arm : Bool) (ds : List Document) :
    Forall₂ (Recast σ arm) ds (ds.map g) := by
  match ds with
  | [] => exact .nil
  | d :: ds =>
    exact .cons (recast_map hscalar hlist hmapping arm d)
      (recast_mapList hscalar hlist hmapping arm ds)
termination_by sizeOf ds

end

end Map

theorem nameToken?_text_ne_empty {line : Int} {d : Document} {t : Token}
    (h : nameToken? line d = some t) : t.text ≠ "" := by
  cases d with
  | text s =>
    by_cases hs : s = ""
    · simp [nameToken?, hs] at h
    · simp only [nameToken?, if_neg hs, Option.some.injEq] at h
      rwa [← h]
  | int i =>
    cases h
    exact toString_ne_empty _
  | _ => cases h

/-- A spelling that changes at most the empty word leaves all documents as they are. -/
theorem recast_self (hσ : ∀ s, s ≠ "" → σ s = s) (arm : Bool) (d : Document) :
    Recast σ arm d d := by
  have hwords : ∀ d, WordsRecast σ d d := by
    intro d
    cases d with
    | list ds =>
      refine .list (List.forall₂_same.2 fun d _ s hs hd => ?_)
      rw [hσ s hs]
      exact ⟨hd, hs⟩
    | _ => exact .other nofun id
  refine recast_map (g := id) (fun _ _ => rfl) (fun ds => by rw [List.map_id]; rfl)
    (fun fields => ⟨fields, rfl, fun _ => rfl, fun _ => rfl, fun line t ht => ?_,
      fun key _ => hwords _, fun _ _ => rfl⟩) arm d
  rw [Token.respelled, if_pos (hσ _ (nameToken?_text_ne_empty ht)), ht]

variable (hσ : ∀ s, s ≠ "" → σ s ≠ "")
include hσ

theorem nameRecast_renamedName (d : Document) : NameRecast σ d (d.renamedName σ) := by
  intro line t ht
  cases d with
  | text s =>
    by_cases hs : s = ""
    · simp [nameToken?, hs] at ht
    · simp only [nameToken?, if_neg hs, Option.some.injEq] at ht
      rw [renamedName, nameToken?, if_neg (hσ s hs), ← ht, Token.respelled_identifier]
  | int i =>
    cases ht
    by_cases hfix : σ (toString i.toInt) = toString i.toInt
    · rw [renamedName, if_pos hfix, nameToken?, Token.respelled, if_pos hfix]
    · rw [renamedName, if_neg hfix, nameToken?, if_neg (hσ _ (toString_ne_empty _)),
        Token.respelled, if_neg hfix]
  | _ => cases ht

theorem wordsRecast_renamedWords (d : Document) : WordsRecast σ d (d.renamedWords σ) := by
  cases d with
  | list ds =>
    refine .list (List.forall₂_map_right_iff.2 (List.forall₂_same.2 fun d _ s hs hd => ?_))
    rw [hd]
    exact ⟨rfl, hσ s hs⟩
  | _ => exact .other nofun id

theorem recast_renamed (arm : Bool) (d : Document) : Recast σ arm d (d.renamed σ) := by
  refine recast_map ?_ ?_ (fun fields => ⟨renamedFields σ fields, by rw [renamed], ?_⟩) arm d
  · intro d hd
    cases d with
    | list | mapping => exact hd.elim
    | _ => rw [renamed] <;> nofun
  · intro ds
    rw [renamed]
    congr 1
    induction ds with
    | nil => rw [renamedList, List.map_nil]
    | cons d ds ih => rw [renamedList, ih, List.map_cons]
  · refine ⟨(typeWord_renamedFields σ · fields), lineOf_renamedFields σ fields, ?_, ?_, ?_⟩
    · rw [under_renamedFields]
      exact nameRecast_renamedName hσ _
    · intro key hkey
      rw [under_renamedFields, renamedUnder, if_neg (by rintro rfl; simp at hkey), if_pos hkey]
      exact wordsRecast_renamedWords hσ _
    · intro key hkey
      simp only [List.mem_cons, List.not_mem_nil, or_false, not_or] at hkey
      obtain ⟨-, -, hname, hparams, helements⟩ := hkey
      rw [under_renamedFields, renamedUnder, if_neg hname, if_neg (by simp [hparams, helements])]

end Renamed

/-- No document introduces the empty name. -/
theorem ne_empty_of_mem_introduced {ds : List Document} {p : Program} (h : program ds = .ok p)
    {x : String} (hx : x ∈ p.introduced) : x ≠ "" := by
  -- a spelling of the empty name alone leaves the documents as they are, and so their names
  let σ : String → String := fun s => if s = "" then "empty" else s
  have hself : Forall₂ (Recast σ false) ds ds :=
    List.forall₂_same.2 fun d _ => recast_self (fun s hs => if_neg hs) false d
  have hp : p.respelled σ = p := by
    have hread := program_recast hself h
    rw [h, Except.ok.injEq] at hread
    exact hread.symm
  rw [← hp, Program.introduced_respelled] at hx
  obtain ⟨s, -, rfl⟩ := List.mem_map.1 hx
  by_cases hs : s = ""
  · simp [σ, hs]
  · simp [σ, hs]

theorem ne_empty_of_isReserved {k : String} (h : isReserved k = true) : k ≠ "" := by
  rintro rfl
  exact absurd h (by decide)

/-- Any name that a document introduces may be exchanged for any reserved word. The document that
comes out is read as well, breaks the same rules in the same order (so none, if there were none),
and introduces the same names but for the exchange: the reserved word among them. -/
theorem reserved_words_are_bound {ds : List Document} {p : Program} {x k : String}
    (h : program ds = .ok p) (hx : x ∈ p.introduced) (hk : isReserved k = true) :
    ∃ q, program (ds.map (·.renamed (Equiv.swap x k))) = .ok q ∧
      q.resolve.diagnostics.map (·.rule) = p.resolve.diagnostics.map (·.rule) ∧
      q.introduced = p.introduced.map (Equiv.swap x k) ∧ k ∈ q.introduced := by
  have hxe := ne_empty_of_mem_introduced h hx
  have hke := ne_empty_of_isReserved hk
  have hσ : ∀ s, s ≠ "" → Equiv.swap x k s ≠ "" := by
    intro s hs
    rw [Equiv.swap_apply_def]
    split_ifs
    · exact hke
    · exact hxe
    · exact hs
  have hrecast : Forall₂ (Recast (Equiv.swap x k) false) ds
      (ds.map (·.renamed (Equiv.swap x k))) :=
    List.forall₂_map_right_iff.2 (List.forall₂_same.2 fun d _ => recast_renamed hσ false d)
  have hnames := Program.introduced_respelled (Equiv.swap x k) p
  refine ⟨p.respelled (Equiv.swap x k), program_recast hrecast h,
    Program.rules_respelled _ p (Equiv.swap x k).injective, hnames, ?_⟩
  rw [hnames]
  exact List.mem_map.2 ⟨x, hx, Equiv.swap_apply_left x k⟩

/-- A variable that is defined in a block. -/
def localDefinition (name : String) : Document :=
  .mapping [("type", .text "Block"),
    ("statements", .list [.mapping [("type", .text "Def"), ("name", .text name)]])]

theorem self_is_bound :
    ∃ p, program [localDefinition "self"] = .ok p ∧ p.resolve.diagnostics = [] ∧
      "self" ∈ p.introduced := by
  let name : Token := ⟨.identifier, "a", 1, .null⟩
  let define : Token := ⟨.keyword .define, "def", 1, .null⟩
  let p : Program := [.block ⟨.mark .bodyStart, "|", 1, .null⟩ [.define ⟨define, name, none⟩]]
  have hp : program [localDefinition "a"] = .ok p := by with_unfolding_all rfl
  obtain ⟨q, hq, hrules, -, hself⟩ :=
    reserved_words_are_bound (x := "a") (k := "self") hp (by decide) (by decide)
  have hclean : p.resolve.diagnostics = [] := by with_unfolding_all rfl
  have hdoc : [localDefinition "a"].map (·.renamed (Equiv.swap "a" "self")) =
      [localDefinition "self"] := by with_unfolding_all rfl
  rw [hdoc] at hq
  rw [hclean, List.map_nil, List.map_eq_nil_iff] at hrules
  exact ⟨q, hq, hrules, hself⟩

end Document

end Treescript
