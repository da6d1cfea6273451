import Treescript.Proofs.DocumentNodes

/-!
# The fault that a reader names

A reader that rejects a document names its first fault. One rule for each form of a field says whom
the reader blames while it reads the field, and that the field is sound if it goes on; the types of
nodes put these rules together in the order of their fields.
-/

namespace Treescript.Document

/-- Whatever the reading is stopped by has a property. -/
def Blames {α : Type} (r : Reading α) (F : Invalid → Prop) : Prop :=
  ∀ line i, r.run line = .error i → F i

namespace Blames

variable {α β : Type} {r : Reading α} {F G : Invalid → Prop}

theorem of_accepts (h : Accepts r True) : Blames r F := by
  intro line i hrun
  obtain ⟨a, line', hok⟩ := (h line).2 trivial
  cases hok.symm.trans hrun

protected theorem throw {i : Invalid} (h : F i) : Blames (throw i : Reading α) F := by
  rintro line _ ⟨⟩
  exact h

theorem imp (h : Blames r F) (hFG : ∀ i, F i → G i) : Blames r G :=
  fun line i hrun => hFG i (h line i hrun)

/-- What comes next can rely on the document being as the first reading accepts it. -/
protected theorem bind {P : Prop} {k : α → Reading β} (h : Blames r F) (ha : Accepts r P)
    (hk : ∀ a, P → Blames (k a) F) : Blames (r >>= k) F := by
  intro line i hrun
  rw [StateT.run_bind] at hrun
  cases hr : r.run line with
  | error j =>
    rw [hr] at hrun
    obtain rfl : j = i := Except.error.inj hrun
    exact h line j hr
  | ok result =>
    rw [hr] at hrun
    exact hk result.1 ((ha line).1 ⟨_, _, hr⟩) result.2 i hrun

/-- The first reading always succeeds. -/
theorem after {k : α → Reading β} (ha : Accepts r True) (hk : ∀ a, Blames (k a) F) :
    Blames (r >>= k) F :=
  (of_accepts ha).bind ha fun a _ => hk a

/-- The last reading always succeeds. -/
theorem ending {k : α → Reading β} (h : Blames r F) (hk : ∀ a, Accepts (k a) True) :
    Blames (r >>= k) F := by
  intro line i hrun
  rw [StateT.run_bind] at hrun
  cases hr : r.run line with
  | error j =>
    rw [hr] at hrun
    obtain rfl : j = i := Except.error.inj hrun
    exact h line j hr
  | ok result =>
    rw [hr] at hrun
    exact of_accepts (hk result.1) result.2 i hrun

protected theorem map (f : α → β) (h : Blames r F) : Blames (f <$> r) F := by
  rw [map_eq_pure_bind]
  exact h.ending fun a => .pure (f a)

end Blames

/-- The first fault of a list of documents, the first of which has a given index. -/
def FirstIn (q : Position) (path : Path) (index : Nat) (ds : List Document) (i : Invalid) : Prop :=
  ∃ before d after, ds = before ++ d :: after ∧ (∀ c ∈ before, q.Valid c) ∧
    FirstFault ⟨path ++ [.index (index + before.length)], q, d⟩ i

namespace FirstIn

variable {q : Position} {path : Path} {index : Nat} {d : Document} {rest : List Document}

theorem head (i : Invalid) (h : FirstFault ⟨path ++ [.index index], q, d⟩ i) :
    FirstIn q path index (d :: rest) i :=
  ⟨[], d, rest, rfl, List.forall_mem_nil _, h⟩

theorem tail (hd : q.Valid d) (i : Invalid) (h : FirstIn q path (index + 1) rest i) :
    FirstIn q path index (d :: rest) i := by
  obtain ⟨before, c, after, rfl, hbefore, hc⟩ := h
  refine ⟨d :: before, c, after, rfl, List.forall_mem_cons.2 ⟨hd, hbefore⟩, ?_⟩
  rwa [List.length_cons, Nat.add_comm before.length, ← Nat.add_assoc]

end FirstIn

namespace Opened

variable {d : Document}

/-- The reader has opened a node and found its fields sound as far as those that are left. -/
structure Reached (n : Opened d) (p : Position) (F : Invalid → Prop) (rest : List Slot) : Prop where
  typed : n.type = typeWord p.implied? n.fields
  slots : ∃ done, p.slots? n.fields = some (done ++ rest) ∧ ∀ s ∈ done, s.Sound n.fields
  blames : ∀ i, FirstFault ⟨n.path, p, d⟩ i → F i

namespace Reached

variable {n : Opened d} {p q : Position} {F : Invalid → Prop} {rest : List Slot} {slot : Slot}
  {key : String} {α β : Type}

theorem next (h : n.Reached p F (slot :: rest)) (hslot : slot.Sound n.fields) :
    n.Reached p F rest := by
  obtain ⟨done, hslots, hdone⟩ := h.slots
  refine ⟨h.typed, ⟨done ++ [slot], by simpa using hslots, ?_⟩, h.blames⟩
  exact List.forall_mem_append.2 ⟨hdone, List.forall_mem_singleton.2 hslot⟩

theorem valid (h : n.Reached p F rest) (hrest : ∀ s ∈ rest, s.Sound n.fields) : p.Valid d := by
  obtain ⟨done, hslots, hdone⟩ := h.slots
  refine Position.valid_iff.2 ⟨n.fields, _, n.isMapping, hslots, ?_⟩
  exact List.forall_mem_append.2 ⟨hdone, hrest⟩

theorem fail (h : n.Reached p F (slot :: rest)) {fault : Fault}
    (hfault : slot.Faulty n.fields fault) : Blames (n.fail fault : Reading α) F := by
  obtain ⟨fields, type, path, rfl⟩ := n
  obtain ⟨htyped, ⟨done, hslots, hdone⟩, hblames⟩ := h
  dsimp only at htyped
  subst htyped
  exact .throw (hblames _ (.own (.field hslots hdone hfault)))

/-- The fault of a node that stands in the next field. -/
theorem inside (h : n.Reached p F (slot :: rest)) {before after : List Spot} {c : Spot}
    (hchildren : slot.children n.fields n.path = before ++ c :: after)
    (hbefore : ∀ b ∈ before, b.Valid) : ∀ i, FirstFault c i → F i := by
  intro i hi
  obtain ⟨fields, type, path, rfl⟩ := n
  obtain ⟨-, ⟨done, hslots, hdone⟩, hblames⟩ := h
  exact hblames i (.inside hslots hdone hchildren hbefore hi)

theorem alone (h : n.Reached p F (slot :: rest)) {c : Spot}
    (hchild : slot.children n.fields n.path = [c]) : ∀ i, FirstFault c i → F i :=
  h.inside (hchild.trans (List.nil_append [c]).symm) (List.forall_mem_nil _)

theorem name (h : n.Reached p F (.name key :: rest)) {k : Token → Reading β}
    (hk : ∀ t, n.Reached p F rest → Blames (k t) F) : Blames (n.name key >>= k) F := by
  refine Blames.bind ?_ (n.accepts_name key) fun t ht => hk t (h.next ht)
  rw [Opened.name]
  obtain ⟨hfield, hunder⟩ | ⟨⟨c, hlt⟩, hfield, hunder, hnull⟩ := n.field?_cases key
  · rw [hfield]
    exact h.fail (.missingName hunder)
  · rw [hfield]
    dsimp only at hunder hnull ⊢
    have hother : c ≠ .text "" → ¬IsName c →
        Blames (n.fail (.notName key c.typeName) : Reading Token) F := by
      rw [hunder] at hnull ⊢
      exact fun htext hname => h.fail (.notName hnull htext hname)
    cases c with
    | text s =>
      by_cases hs : s = ""
      · subst hs
        exact h.fail (.emptyName hunder.symm)
      · simp only [if_neg hs]
        exact .of_accepts (.token _ _ _)
    | int i => exact .of_accepts (.token _ _ _)
    | null => exact absurd rfl hnull
    | _ =>
      refine hother ?_ ?_
      · rintro ⟨⟩
      · rintro ⟨⟩

theorem operator {table : String → Option Operator} (hempty : table "" = none)
    (h : n.Reached p F (.operator table :: rest)) {k : Token → Reading β}
    (hk : ∀ t, n.Reached p F rest → Blames (k t) F) : Blames (n.operator table >>= k) F := by
  refine Blames.bind ?_ (n.accepts_operator table hempty) fun t ht => hk t (h.next ht)
  have hfail : ¬IsOperator table (under n.fields "operator") → Blames (n.fail (.unknownOperator
      (Slot.operatorWord (under n.fields "operator"))) : Reading Token) F :=
    fun hop => h.fail (.unknownOperator hop)
  rw [Opened.operator]
  obtain ⟨hfield, hunder⟩ | ⟨⟨c, hlt⟩, hfield, hunder, hnull⟩ := n.field?_cases "operator"
  · simp only [hfield, hempty]
    rw [hunder] at hfail
    refine hfail ?_
    rintro ⟨⟩
  · simp only [hfield]
    rw [← hunder] at hfail
    cases c with
    | text word =>
      dsimp only at hfail ⊢
      cases hword : table word with
      | none =>
        refine hfail ?_
        rintro ⟨hsome⟩
        simp [hword] at hsome
      | some o => exact .of_accepts (.token _ _ _)
    | null => exact absurd rfl hnull
    | _ =>
      simp only [hempty]
      refine hfail ?_
      rintro ⟨⟩

theorem literal (h : n.Reached p F (.literal :: rest)) : Blames n.literal F := by
  rw [Opened.literal]
  obtain ⟨hfield, hunder⟩ | ⟨⟨c, hlt⟩, hfield, hunder, hnull⟩ := n.field?_cases "value"
  · rw [hfield]
    exact .after (.token _ _ _) fun _ => .of_accepts (.pure _)
  · rw [hfield]
    dsimp only at hunder hnull ⊢
    have hother : ¬IsLiteral c →
        Blames (n.fail (.unsupportedLiteral c.typeName) : Reading Expr) F := by
      rw [hunder]
      exact fun hliteral => h.fail (.unsupportedLiteral hliteral)
    cases c with
    | bool b => cases b <;> exact .after (.token _ _ _) fun _ => .of_accepts (.pure _)
    | int | float | text => exact .after (.token _ _ _) fun _ => .of_accepts (.pure _)
    | null => exact absurd rfl hnull
    | _ =>
      refine hother ?_
      rintro ⟨⟩

theorem required (h : n.Reached p F (.required key q :: rest))
    {k : { c : Document // sizeOf c < sizeOf d } → Reading β}
    (hk : ∀ c, (∀ i, FirstFault ⟨n.child key, q, c.1⟩ i → F i) →
      (q.Valid c.1 → n.Reached p F rest) → Blames (k c) F) :
    Blames (n.required key >>= k) F := by
  rw [Opened.required]
  obtain ⟨hfield, hunder⟩ | ⟨c, hfield, hunder, hnull⟩ := n.field?_cases key
  · rw [hfield]
    exact (h.fail (.missing hunder)).bind (.throw _) fun _ => False.elim
  · rw [hfield]
    simp only [pure_bind]
    refine hk c (h.alone ?_) fun hc => ?_
    · exact hunder ▸ Slot.children_required (hunder ▸ hnull)
    · exact h.next (show q.Valid _ from hunder ▸ hc)

theorem optional (h : n.Reached p F (.optional key q :: rest)) :
    (n.field? key = none ∧ n.Reached p F rest) ∨
      ∃ c, n.field? key = some c ∧ (∀ i, FirstFault ⟨n.child key, q, c.1⟩ i → F i) ∧
        (q.Valid c.1 → n.Reached p F rest) := by
  obtain ⟨hfield, hunder⟩ | ⟨c, hfield, hunder, hnull⟩ := n.field?_cases key
  · refine .inl ⟨hfield, h.next ?_⟩
    rw [Slot.Sound, hunder]
    exact .missing
  · refine .inr ⟨c, hfield, h.alone ?_, ?_⟩
    · exact hunder ▸ Slot.children_required (hunder ▸ hnull)
    · exact fun hc => h.next (.present (hunder ▸ hc))

/-- A list is either there, or missing and then empty. -/
theorem listing {k : { cs : List Document // sizeOf cs < sizeOf d } → Reading β} {fault : Fault}
    (hfail : ¬Listing (fun _ => True) (under n.fields key) →
      Blames (n.fail fault : Reading { cs : List Document // sizeOf cs < sizeOf d }) F)
    (hk : ∀ cs, under n.fields key = .list cs.1 ∨ under n.fields key = .null ∧ cs.1 = [] →
      Blames (k cs) F) : Blames (n.items key fault >>= k) F := by
  rw [Opened.items]
  obtain ⟨hfield, hunder⟩ | ⟨⟨c, hlt⟩, hfield, hunder, hnull⟩ := n.field?_cases key
  · rw [hfield]
    simp only [pure_bind]
    exact hk _ (.inr ⟨hunder, rfl⟩)
  · rw [hfield]
    cases c with
    | list items =>
      simp only [pure_bind]
      exact hk _ (.inl hunder.symm)
    | null => exact absurd rfl hnull
    | _ =>
      refine (hfail ?_).bind (.throw _) fun _ => False.elim
      rw [← hunder]
      rintro ⟨⟩

theorem items (h : n.Reached p F (.items key q :: rest))
    {k : { cs : List Document // sizeOf cs < sizeOf d } → Reading β}
    (hk : ∀ cs, (∀ i, FirstIn q (n.child key) 0 cs.1 i → F i) →
      ((∀ c ∈ cs.1, q.Valid c) → n.Reached p F rest) → Blames (k cs) F) :
    Blames (n.items key (q.listFault key) >>= k) F := by
  refine listing (fun hlist => h.fail (.notList hlist)) fun cs hcs => hk cs ?_ fun hall => h.next ?_
  · rintro i ⟨before, c, after, heq, hbefore, hc⟩
    obtain hunder | ⟨-, hnil⟩ := hcs
    · have hchildren : (Slot.items key q).children n.fields n.path = _ :=
        Slot.children_items hunder
      rw [heq, List.mapIdx_append, List.mapIdx_cons] at hchildren
      refine h.inside hchildren ?_ i (by simpa [Opened.child] using hc)
      intro b hb
      obtain ⟨j, hj, rfl⟩ := List.mem_mapIdx.1 hb
      exact hbefore _ (List.getElem_mem hj)
    · simp [hnil] at heq
  · rw [Slot.Sound]
    obtain hunder | ⟨hunder, -⟩ := hcs
    · rw [hunder]
      exact .list hall
    · rw [hunder]
      exact .missing

theorem nameList (h : n.Reached p F (.words key :: rest)) (items before : List Document)
    (hlist : under n.fields key = .list (before ++ items)) (hbefore : ∀ c ∈ before, IsWord c) :
    Blames (n.nameList key items before.length) F := by
  induction items generalizing before with
  | nil => exact .of_accepts (.pure _)
  | cons c items ih =>
    have hfail : ∀ {α : Type}, ¬IsWord c →
        Blames (n.fail (.notNameAt key before.length) : Reading α) F :=
      fun hword => h.fail (.notNameAt hlist hbefore hword)
    cases c with
    | text s =>
      rw [Opened.nameList]
      by_cases hs : s = ""
      · rw [if_pos hs]
        refine Blames.bind (hfail ?_) (.throw _) fun _ => False.elim
        rintro ⟨hne⟩
        exact hne hs
      · rw [if_neg hs]
        refine .after (.token _ _ _) fun first => Blames.ending ?_ fun others => .pure _
        have hrest := ih (before ++ [.text s]) (by simpa using hlist) ?_
        · simpa using hrest
        · exact List.forall_mem_append.2 ⟨hbefore, List.forall_mem_singleton.2 (.text hs)⟩
    | _ =>
      refine hfail ?_
      rintro ⟨⟩

theorem words (h : n.Reached p F (.words key :: rest)) {k : List Token → Reading β}
    (hk : ∀ ts, n.Reached p F rest → Blames (k ts) F) : Blames (n.names key >>= k) F := by
  refine Blames.bind ?_ (n.accepts_names key) fun ts hts => hk ts (h.next hts)
  refine listing (fun hlist => h.fail (.notNames hlist)) fun cs hcs => ?_
  obtain hunder | ⟨-, hnil⟩ := hcs
  · exact h.nameList cs.1 [] hunder (List.forall_mem_nil _)
  · obtain ⟨_, _⟩ := cs
    subst hnil
    exact .of_accepts (.pure _)

end Reached

/-- The type of an opened node is not allowed in its position. -/
theorem blames_misfit {n : Opened d} {p : Position} {F : Invalid → Prop} {fault : Fault} {α : Type}
    (hF : ∀ i, FirstFault ⟨n.path, p, d⟩ i → F i) (htyped : n.type = typeWord p.implied? n.fields)
    (htype : n.type ≠ "") (hslots : p.slots? n.fields = none) (h : p.misfit? = some fault) :
    Blames (n.fail fault : Reading α) F := by
  obtain ⟨fields, type, path, rfl⟩ := n
  dsimp only at htyped
  subst htyped
  exact .throw (hF _ (.own (.misfit htype hslots h)))

end Opened

theorem blames_openAs {β : Type} {d : Document} {path : Path} (p : Position) {F : Invalid → Prop}
    {k : Opened d → Reading β} (hF : ∀ i, FirstFault ⟨path, p, d⟩ i → F i)
    (hk : ∀ n : Opened d, n.type = typeWord p.implied? n.fields → n.type ≠ "" →
      (∀ i, FirstFault ⟨n.path, p, d⟩ i → F i) → Blames (k n) F) :
    Blames (openAs p.implied? d path >>= k) F := by
  cases d with
  | mapping fields =>
    intro line i hrun
    rw [StateT.run_bind, run_openAs_mapping] at hrun
    by_cases h : typeWord p.implied? fields = ""
    · rw [if_pos h] at hrun
      obtain rfl := Except.error.inj hrun
      exact hF _ (.own (.noType h))
    · rw [if_neg h] at hrun
      exact hk _ rfl h hF _ i hrun
  | _ =>
    refine Blames.bind (.throw (hF _ (.own (.notMapping ?_)))) (.throw _) fun _ => False.elim
    rintro fields ⟨⟩

mutual

theorem expression_blames (d : Document) (path : Path) :
    Blames (expression d path) (FirstFault ⟨path, .expression, d⟩) := by
  rw [expression]
  refine blames_openAs .expression (fun _ h => h) fun n htyped htype hF => ?_
  have hrequired : ∀ {α : Type} {key : String} {rest : List Slot} {k : Expr → Reading α},
      n.Reached .expression (FirstFault ⟨path, .expression, d⟩)
        (.required key .expression :: rest) →
      (∀ e, n.Reached .expression (FirstFault ⟨path, .expression, d⟩) rest →
        Blames (k e) (FirstFault ⟨path, .expression, d⟩)) →
      Blames (n.required key >>= fun c => expression c.1 (n.child key) >>= k)
        (FirstFault ⟨path, .expression, d⟩) := fun h hk =>
    h.required fun c hin hnext => ((expression_blames c.1 _).imp hin).bind
      (expression_accepts c.1 _) fun e he => hk e (hnext he)
  cases ht : ExprType.ofName? n.type with
  | none =>
    refine Opened.blames_misfit hF htyped htype ?_ rfl
    rw [Position.slots?, ← show n.type = typeWord none n.fields from htyped, ht]
    rfl
  | some t =>
    have h : n.Reached .expression (FirstFault ⟨path, .expression, d⟩) t.slots := by
      refine ⟨htyped, ⟨[], ?_, List.forall_mem_nil _⟩, hF⟩
      rw [Position.slots?, ← show n.type = typeWord none n.fields from htyped, ht]
      rfl
    cases t with
    | literal => exact h.literal
    | «variable» | parent | global => exact h.name fun _ _ => .of_accepts (.pure _)
    | self => exact .after (.token _ _ _) fun _ => .of_accepts (.pure _)
    | assign => exact h.name fun _ h => hrequired h fun _ _ => .of_accepts (.pure _)
    | unary => exact h.operator rfl fun _ h => hrequired h fun _ _ => .of_accepts (.pure _)
    | binary | logical =>
      exact h.operator rfl fun _ h => hrequired h fun _ h => hrequired h fun _ _ =>
        .of_accepts (.pure _)
    | count => exact h.operator rfl fun _ h => h.name fun _ _ => .of_accepts (.pure _)
    | call =>
      refine hrequired h fun _ h => h.items fun cs hin _ => ?_
      refine ((expressions_blame cs.1 _ 0).imp hin).ending fun _ => ?_
      exact (Accepts.token _ _ _).ending fun _ => .pure _
    | grouping => exact .after (.token _ _ _) fun _ => hrequired h fun _ _ => .of_accepts (.pure _)
    | get => exact hrequired h fun _ h => h.name fun _ _ => .of_accepts (.pure _)
    | set =>
      exact hrequired h fun _ h => h.name fun _ h => hrequired h fun _ _ => .of_accepts (.pure _)
termination_by sizeOf d

theorem expressions_blame (ds : List Document) (path : Path) (index : Nat) :
    Blames (expressions ds path index) (FirstIn .expression path index ds) := by
  match ds with
  | [] =>
    rw [expressions]
    exact .of_accepts (.pure _)
  | d :: rest =>
    rw [expressions]
    refine ((expression_blames d _).imp .head).bind (expression_accepts d _) fun _ hd => ?_
    exact ((expressions_blame rest path _).imp (.tail hd)).ending fun _ => .pure _
termination_by sizeOf ds

end

namespace Opened.Reached

variable {d : Document} {n : Opened d} {p : Position} {F : Invalid → Prop} {rest : List Slot}
  {key : String} {β : Type}

theorem requiredExpr (h : n.Reached p F (.required key .expression :: rest)) {k : Expr → Reading β}
    (hk : ∀ e, n.Reached p F rest → Blames (k e) F) : Blames (n.requiredExpr key >>= k) F := by
  refine Blames.bind (h.required fun c hin _ => (expression_blames c.1 _).imp hin)
    (n.accepts_requiredExpr key) fun e he => hk e (h.next he)

theorem optionalExpr (h : n.Reached p F (.optional key .expression :: rest))
    {k : Option Expr → Reading β} (hk : ∀ e, n.Reached p F rest → Blames (k e) F) :
    Blames (n.optionalExpr key >>= k) F := by
  refine Blames.bind ?_ (n.accepts_optionalExpr key) fun e he => hk e (h.next he)
  rw [Opened.optionalExpr]
  obtain ⟨hfield, -⟩ | ⟨c, hfield, hin, -⟩ := h.optional
  · rw [hfield]
    exact .of_accepts (.pure _)
  · rw [hfield]
    exact .map _ ((expression_blames c.1 _).imp hin)

theorem definition (h : n.Reached p F StmtType.define.slots) {k : Definition → Reading β}
    (hk : ∀ d, n.Reached p F [] → Blames (k d) F) : Blames (n.definition >>= k) F := by
  refine Blames.bind ?_ n.accepts_definition fun d hd => hk d ?_
  · exact .after (.token _ _ _) fun _ => h.name fun _ h => h.optionalExpr fun _ _ =>
      .of_accepts (.pure _)
  · exact (h.next hd.name).next hd.initial

end Opened.Reached

theorem members_blame (path : Path) (ds : List Document) (index : Nat) :
    Blames (members path ds index) (FirstIn .member path index ds) := by
  induction ds generalizing index with
  | nil => exact .of_accepts (.pure _)
  | cons d rest ih =>
    rw [members]
    refine blames_openAs .member .head fun n htyped htype hF => ?_
    by_cases hdef : n.type = "Def"
    · rw [if_neg (not_not_intro hdef)]
      have h : n.Reached .member (FirstIn .member path index (d :: rest)) StmtType.define.slots :=
        ⟨htyped, ⟨[], if_pos (htyped.symm.trans hdef), List.forall_mem_nil _⟩, hF⟩
      exact h.definition fun _ h =>
        ((ih _).imp (.tail (h.valid (List.forall_mem_nil _)))).ending fun _ => .pure _
    · rw [if_pos hdef]
      refine Blames.bind (Opened.blames_misfit hF htyped htype ?_ rfl) (.throw _)
        fun _ => False.elim
      exact if_neg (htyped ▸ hdef)

mutual

theorem statement_blames (d : Document) (path : Path) :
    Blames (statement d path) (FirstFault ⟨path, .statement, d⟩) := by
  rw [statement]
  refine blames_openAs .statement (fun _ h => h) fun n htyped htype hF => ?_
  have hrequired : ∀ {α : Type} {key : String} {rest : List Slot} {k : Stmt → Reading α},
      n.Reached .statement (FirstFault ⟨path, .statement, d⟩) (.required key .statement :: rest) →
      (∀ s, n.Reached .statement (FirstFault ⟨path, .statement, d⟩) rest →
        Blames (k s) (FirstFault ⟨path, .statement, d⟩)) →
      Blames (n.required key >>= fun c => statement c.1 (n.child key) >>= k)
        (FirstFault ⟨path, .statement, d⟩) := fun h hk =>
    h.required fun c hin hnext => ((statement_blames c.1 _).imp hin).bind
      (statement_accepts c.1 _) fun s hs => hk s (hnext hs)
  cases ht : StmtType.ofName? n.type with
  | none =>
    refine Opened.blames_misfit hF htyped htype ?_ rfl
    rw [Position.slots?, ← show n.type = typeWord none n.fields from htyped, ht]
    rfl
  | some t =>
    have h : n.Reached .statement (FirstFault ⟨path, .statement, d⟩) t.slots := by
      refine ⟨htyped, ⟨[], ?_, List.forall_mem_nil _⟩, hF⟩
      rw [Position.slots?, ← show n.type = typeWord none n.fields from htyped, ht]
      rfl
    cases t with
    | expression => exact .after .get fun _ => h.requiredExpr fun _ _ => .of_accepts (.pure _)
    | print =>
      exact .after (.token _ _ _) fun _ => h.requiredExpr fun _ _ => .of_accepts (.pure _)
    | define =>
      dsimp only
      rw [map_eq_pure_bind]
      exact h.definition fun _ _ => .of_accepts (.pure _)
    | block =>
      refine .after (.token _ _ _) fun _ => h.items fun cs hin _ => ?_
      exact ((statements_blame cs.1 _ 0).imp hin).ending fun _ => .pure _
    | operation => exact (operation_blames d n h).map _
    | conditional =>
      refine .after (.token _ _ _) fun _ => h.requiredExpr fun _ h => hrequired h fun _ h =>
        h.items fun cs hin hnext => ?_
      refine ((arms_blame cs.1 _ 0).imp hin).bind (arms_accept cs.1 _ 0) fun _ hall => ?_
      obtain ⟨hfield, -⟩ | ⟨c, hfield, hin, -⟩ := (hnext hall).optional
      · rw [hfield]
        exact .of_accepts (.pure _)
      · rw [hfield]
        exact ((statement_blames c.1 _).imp hin).ending fun _ => .pure _
    | loop =>
      exact .after (.token _ _ _) fun _ => h.requiredExpr fun _ h => hrequired h fun _ _ =>
        .of_accepts (.pure _)
    | «return» =>
      exact .after (.token _ _ _) fun _ => h.optionalExpr fun _ _ => .of_accepts (.pure _)
    | object =>
      refine .after (.token _ _ _) fun _ => h.name fun _ h => h.items fun cs hin _ => ?_
      exact ((methods_blame cs.1 _ 0).imp hin).ending fun _ => .pure _
    | «enum» =>
      exact .after (.token _ _ _) fun _ => h.name fun _ h => h.words fun _ _ =>
        .of_accepts (.pure _)
    | form =>
      refine .after (.token _ _ _) fun _ => h.name fun _ h => h.items fun cs hin _ => ?_
      exact ((members_blame _ cs.1 0).imp hin).ending fun _ => .pure _
termination_by 2 * sizeOf d + 1
decreasing_by all_goals omega

theorem operation_blames (d : Document) (n : Opened d) {p : Position} {F : Invalid → Prop}
    (h : n.Reached p F StmtType.operation.slots) : Blames (operation d n) F := by
  rw [operation]
  refine .after (.token _ _ _) fun _ => h.name fun _ h => h.words fun _ h =>
    h.items fun cs hin _ => ?_
  exact ((statements_blame cs.1 _ 0).imp hin).ending fun _ => .pure _
termination_by 2 * sizeOf d
decreasing_by all_goals omega

theorem statements_blame (ds : List Document) (path : Path) (index : Nat) :
    Blames (statements ds path index) (FirstIn .statement path index ds) := by
  match ds with
  | [] =>
    rw [statements]
    exact .of_accepts (.pure _)
  | d :: rest =>
    rw [statements]
    refine ((statement_blames d _).imp .head).bind (statement_accepts d _) fun _ hd => ?_
    exact ((statements_blame rest path _).imp (.tail hd)).ending fun _ => .pure _
termination_by 2 * sizeOf ds
decreasing_by all_goals (rw [List.cons.sizeOf_spec]; omega)

theorem arms_blame (ds : List Document) (path : Path) (index : Nat) :
    Blames (arms ds path index) (FirstIn .arm path index ds) := by
  match ds with
  | [] =>
    rw [arms]
    exact .of_accepts (.pure _)
  | d :: rest =>
    rw [arms]
    refine blames_openAs .arm .head fun n htyped htype hF => .after (.token _ _ _) fun _ => ?_
    have h : n.Reached .arm (FirstIn .arm path index (d :: rest))
        [.required "condition" .expression, .required "branch" .statement] :=
      ⟨htyped, ⟨[], if_neg (htyped ▸ htype), List.forall_mem_nil _⟩, hF⟩
    refine h.requiredExpr fun _ h => h.required fun c hin hnext => ?_
    refine ((statement_blames c.1 _).imp hin).bind (statement_accepts c.1 _) fun _ hc => ?_
    have hvalid := (hnext hc).valid (List.forall_mem_nil _)
    exact ((arms_blame rest path _).imp (.tail hvalid)).ending fun _ => .pure _
termination_by 2 * sizeOf ds
decreasing_by all_goals (rw [List.cons.sizeOf_spec]; omega)

theorem methods_blame (ds : List Document) (path : Path) (index : Nat) :
    Blames (methods ds path index) (FirstIn .method path index ds) := by
  match ds with
  | [] =>
    rw [methods]
    exact .of_accepts (.pure _)
  | d :: rest =>
    rw [methods]
    refine blames_openAs .method .head fun n htyped htype hF => ?_
    by_cases hop : n.type = "Op"
    · rw [if_neg (not_not_intro hop)]
      have h : n.Reached .method (FirstIn .method path index (d :: rest))
          StmtType.operation.slots :=
        ⟨htyped, ⟨[], if_pos (htyped.symm.trans hop), List.forall_mem_nil _⟩, hF⟩
      refine (operation_blames d n h).bind (operation_accepts d n) fun _ hd => ?_
      have hvalid := h.valid (isOperation_iff.1 hd)
      exact ((methods_blame rest path _).imp (.tail hvalid)).ending fun _ => .pure _
    · rw [if_pos hop]
      refine Blames.bind (Opened.blames_misfit hF htyped htype ?_ rfl) (.throw _)
        fun _ => False.elim
      exact if_neg (htyped ▸ hop)
termination_by 2 * sizeOf ds
decreasing_by all_goals (rw [List.cons.sizeOf_spec]; omega)

end

end Document

namespace Path

/-- One more character of a written path, from behind: the characters of the step that it is part of
as far as they are known, and the steps behind that. -/
def unread (c : Char) (known : List Char × Path) : List Char × Path :=
  match c with
  | '.' => ([], .key (String.ofList known.1) :: known.2)
  | '[' => ([], .index (Nat.ofDigitChars 10 known.1 0) :: known.2)
  | ']' => known
  | c => (c :: known.1, known.2)

def ofChars (cs : List Char) : Path :=
  let known := cs.foldr unread ([], [])
  .key (String.ofList known.1) :: known.2

/-- The path that a message gives. -/
def ofMessage (message : String) : Path :=
  ofChars ((message.toList.drop "fixtures: ".length).takeWhile fun c => c != ' ' && c != ':')

/-- All keys are words of letters. -/
def Plain (p : Path) : Prop := ∀ key, .key key ∈ p → ∀ c ∈ key.toList, c.isAlpha

theorem foldr_unread {cs : List Char} (h : ∀ c ∈ cs, c.isAlphanum) (known : List Char × Path) :
    cs.foldr unread known = (cs ++ known.1, known.2) := by
  induction cs with
  | nil => rfl
  | cons c cs ih =>
    rw [List.forall_mem_cons] at h
    rw [List.foldr_cons, ih h.2, unread]
    · rfl
    all_goals
      rintro rfl
      exact absurd h.1 (by decide)

theorem isAlphanum_iff {c : Char} : c.isAlphanum ↔ c.isAlpha ∨ c.isDigit := Bool.or_eq_true_iff

theorem isAlphanum_of_mem_key {p : Path} (h : p.Plain) {key : String} (hkey : .key key ∈ p) :
    ∀ c ∈ key.toList, c.isAlphanum :=
  fun c hc => isAlphanum_iff.2 (.inl (h key hkey c hc))

theorem isAlphanum_of_mem_index {n : Nat} : ∀ c ∈ Nat.toDigits 10 n, c.isAlphanum :=
  fun _ hc => isAlphanum_iff.2 (.inr (Nat.isDigit_of_mem_toDigits (by decide) (by decide) hc))

theorem foldr_unread_tail {p : Path} (h : p.Plain) :
    (tail p).toList.foldr unread ([], []) = ([], p) := by
  induction p with
  | nil => rfl
  | cons step rest ih =>
    have hrest := ih fun key hkey => h key (List.mem_cons_of_mem _ hkey)
    cases step with
    | key name =>
      rw [tail, String.toList_append, String.toList_append, List.foldr_append, List.foldr_append,
        hrest, foldr_unread (isAlphanum_of_mem_key h (.head _))]
      simp [unread]
    | index n =>
      have hdigits : (toString n).toList = Nat.toDigits 10 n := Nat.toList_repr
      rw [tail, String.toList_append, String.toList_append, String.toList_append, hdigits,
        List.foldr_append, List.foldr_append, List.foldr_append, hrest]
      simp [unread, foldr_unread isAlphanum_of_mem_index, Nat.ofDigitChars_ten_toDigits]

/-- No character of a written path ends it in a message. -/
theorem not_delimiter_of_mem_tail {p : Path} (h : p.Plain) :
    ∀ c ∈ (tail p).toList, (c != ' ' && c != ':') = true := by
  have hword : ∀ {cs : List Char}, (∀ c ∈ cs, c.isAlphanum) →
      ∀ c ∈ cs, (c != ' ' && c != ':') = true := by
    intro cs hcs c hc
    rw [Bool.and_eq_true, bne_iff_ne, bne_iff_ne]
    constructor
    all_goals
      rintro rfl
      exact absurd (hcs _ hc) (by decide)
  induction p with
  | nil => exact List.forall_mem_nil _
  | cons step rest ih =>
    have hrest := ih fun key hkey => h key (List.mem_cons_of_mem _ hkey)
    cases step with
    | key name =>
      rw [tail, String.toList_append, String.toList_append]
      have hdot : ".".toList.all fun c => c != ' ' && c != ':' := by decide
      refine List.forall_mem_append.2
        ⟨List.forall_mem_append.2 ⟨List.all_eq_true.1 hdot, ?_⟩, hrest⟩
      exact hword (isAlphanum_of_mem_key h (.head _))
    | index n =>
      have hdigits : (toString n).toList = Nat.toDigits 10 n := Nat.toList_repr
      rw [tail, String.toList_append, String.toList_append, String.toList_append, hdigits]
      have hopen : "[".toList.all fun c => c != ' ' && c != ':' := by decide
      have hclose : "]".toList.all fun c => c != ' ' && c != ':' := by decide
      refine List.forall_mem_append.2
        ⟨List.forall_mem_append.2 ⟨?_, List.all_eq_true.1 hclose⟩, hrest⟩
      exact List.forall_mem_append.2 ⟨List.all_eq_true.1 hopen, hword isAlphanum_of_mem_index⟩

end Path

theorem Invalid.toList_message (i : Invalid) :
    ∃ delimiter rest, (delimiter = ' ' ∨ delimiter = ':') ∧
      i.message.toList = "fixtures: ".toList ++ (i.path.render.toList ++ delimiter :: rest) := by
  obtain ⟨path, type, fault⟩ := i
  cases type with
  | none =>
    refine ⟨':', " ".toList ++ fault.message.toList ++ ": invalid node".toList, .inr rfl, ?_⟩
    simp [message]
  | some t =>
    refine ⟨' ', "(".toList ++ t.toList ++ ")".toList ++ ": ".toList ++ fault.message.toList ++
      ": invalid node".toList, .inl rfl, ?_⟩
    simp [message]

/-- A message gives the path to the node at fault. -/
theorem Invalid.ofMessage_message {i : Invalid} {name : String} {rest : Path}
    (hpath : i.path = .key name :: rest) (h : i.path.Plain) :
    Path.ofMessage i.message = i.path := by
  have hrender : i.path.render.toList = name.toList ++ (Path.tail rest).toList := by
    rw [hpath, Path.render, String.toList_append]
  have hchars : ∀ c ∈ i.path.render.toList, (c != ' ' && c != ':') = true := by
    intro c hc
    apply Path.not_delimiter_of_mem_tail h
    rw [hrender] at hc
    rw [hpath, Path.tail, String.toList_append, String.toList_append, List.append_assoc]
    exact List.mem_append_right _ hc
  have hread : Path.ofChars i.path.render.toList = i.path := by
    rw [hpath] at h ⊢
    have hrest : Path.Plain rest := fun key hkey => h key (List.mem_cons_of_mem _ hkey)
    rw [← hpath, hrender, Path.ofChars, List.foldr_append, Path.foldr_unread_tail hrest,
      Path.foldr_unread (Path.isAlphanum_of_mem_key h (.head _)), hpath]
    simp
  obtain ⟨delimiter, more, hdelimiter, hmessage⟩ := i.toList_message
  rw [Path.ofMessage, hmessage, ← String.length_toList, List.drop_append_length,
    List.takeWhile_append_of_pos hchars]
  obtain rfl | rfl := hdelimiter
  · simpa using hread
  · simpa using hread

namespace Document

/-- The keys of all fields are words of letters. -/
theorem Position.isAlpha_of_slots? {p : Position} {fields : List (String × Document)}
    {slots : List Slot} (h : p.slots? fields = some slots) :
    ∀ slot ∈ slots, ∀ c ∈ slot.key.toList, c.isAlpha := by
  have hall : ∀ {slots : List Slot}, (slots.all fun slot => slot.key.toList.all Char.isAlpha) →
      ∀ slot ∈ slots, ∀ c ∈ slot.key.toList, c.isAlpha :=
    fun h slot hslot => List.all_eq_true.1 (List.all_eq_true.1 h slot hslot)
  have hexpr : ∀ t : ExprType, ∀ slot ∈ t.slots, ∀ c ∈ slot.key.toList, c.isAlpha := by
    intro t
    refine hall ?_
    cases t <;> decide
  have hstmt : ∀ t : StmtType, ∀ slot ∈ t.slots, ∀ c ∈ slot.key.toList, c.isAlpha := by
    intro t
    refine hall ?_
    cases t <;> decide
  cases p with
  | expression =>
    obtain ⟨t, -, rfl⟩ := Option.map_eq_some_iff.1 h
    exact hexpr t
  | statement =>
    obtain ⟨t, -, rfl⟩ := Option.map_eq_some_iff.1 h
    exact hstmt t
  | arm =>
    obtain ⟨-, ⟨⟩⟩ := Option.ite_none_left_eq_some.1 h
    exact hall (by decide)
  | method =>
    obtain ⟨-, ⟨⟩⟩ := Option.ite_none_right_eq_some.1 h
    exact hstmt .operation
  | member =>
    obtain ⟨-, ⟨⟩⟩ := Option.ite_none_right_eq_some.1 h
    exact hstmt .define

/-- The path to a nested node goes on from the path to the outer one. -/
theorem Spot.exists_steps {s : Spot} :
    ∀ n ∈ s.nodes, ∃ steps : Path, n.path = s.path ++ steps ∧ steps.Plain := by
  refine s.forall_nodes (P := fun n => ∃ steps : Path, n.path = s.path ++ steps ∧ steps.Plain)
    ?_ ⟨[], (List.append_nil _).symm, fun _ h => nomatch h⟩
  rintro n ⟨steps, hpath, hplain⟩ c hc
  obtain ⟨fields, slots, -, hslots, slot, hslot, hc⟩ := mem_children.1 hc
  have hkey := Position.isAlpha_of_slots? hslots slot hslot
  obtain ⟨-, -, hchild⟩ | ⟨-, j, -, -, hchild⟩ := slot.mem_children hc
  · refine ⟨steps ++ [.key slot.key], by rw [hchild, hpath, List.append_assoc], fun key h => ?_⟩
    obtain h | h := List.mem_append.1 h
    · exact hplain key h
    · cases List.mem_singleton.1 h
      exact hkey
  · refine ⟨steps ++ [.key slot.key, .index j], by rw [hchild, hpath, List.append_assoc],
      fun key h => ?_⟩
    obtain h | h := List.mem_append.1 h
    · exact hplain key h
    · obtain h | h := List.mem_cons.1 h
      · cases h
        exact hkey
      · cases List.mem_singleton.1 h

/-- The document that holds the statements of a program. -/
def holding (ds : List Document) : Document := .mapping [("statements", .list ds)]

def statementAt (i : Nat) (d : Document) : Spot := ⟨[.key "statements", .index i], .statement, d⟩

/-- The nodes of a program, in the order in which they are read. -/
def programNodes (ds : List Document) : List Spot := (ds.mapIdx statementAt).flatMap Spot.nodes

theorem isAt_statementAt {ds : List Document} {i : Nat} {d : Document} (h : ds[i]? = some d) :
    (statementAt i d).IsAt (holding ds) := by
  simp [Spot.IsAt, statementAt, holding, at?, h]

/-- A document that is rejected as a program is rejected for its first fault. The message gives a
path that leads to the node at fault; the fault is that node's own; and whatever comes before it is
as it should be: the nodes that do not contain it as a whole, and those that contain it as far as
they have been read on the way to it. -/
theorem program_error_names_first_fault {ds : List Document} {i : Invalid}
    (h : program ds = .error i) :
    Path.ofMessage i.message = i.path ∧
      ∃ before spot after, programNodes ds = before ++ spot :: after ∧ spot.path = i.path ∧
        (holding ds).at? i.path = some spot.document ∧
        OwnFault spot.position spot.document i.nodeType i.fault ∧
        (∀ n ∈ before, spot ∉ n.nodes → n.Valid) ∧
        ∀ n ∈ before, spot ∈ n.nodes → n.SoundUpTo spot := by
  have hfirst : FirstIn .statement [.key "statements"] 0 ds i := by
    rw [program, StateT.run'_eq] at h
    cases hrun : (statements ds [.key "statements"] 0).run 1 with
    | ok result =>
      rw [hrun] at h
      cases h
    | error j =>
      rw [hrun] at h
      obtain rfl : j = i := Except.error.inj h
      exact statements_blame ds _ 0 1 j hrun
  -- the statement at fault, and the node at fault in it
  obtain ⟨earlier, d, later, rfl, hearlier, hd⟩ := hfirst
  rw [Nat.zero_add] at hd
  obtain ⟨inner, spot, outer, hnodes, hpath, hown, hclear⟩ :=
    FirstFault.exists_node (s := statementAt earlier.length d) hd
  have hmem : spot ∈ (statementAt earlier.length d).nodes := by simp [hnodes]
  have hget : (earlier ++ d :: later)[earlier.length]? = some d := by simp
  have hat := (isAt_statementAt hget).node spot hmem
  obtain ⟨steps, hsteps, hplain⟩ := Spot.exists_steps spot hmem
  rw [hpath] at hsteps
  have hkeys : i.path.Plain := by
    intro key hkey
    rw [hsteps, List.mem_append] at hkey
    obtain hkey | hkey := hkey
    · obtain rfl : key = "statements" := by simpa [statementAt] using hkey
      exact List.all_eq_true.1 (by decide)
    · exact hplain key hkey
  have hall : programNodes (earlier ++ d :: later) =
      (earlier.mapIdx statementAt).flatMap Spot.nodes ++ inner ++ spot :: (outer ++
        (later.mapIdx fun j => statementAt (j + 1 + earlier.length)).flatMap Spot.nodes) := by
    rw [programNodes, List.mapIdx_append, List.mapIdx_cons, Nat.zero_add, List.flatMap_append,
      List.flatMap_cons, hnodes]
    simp only [List.append_assoc, List.cons_append]
  have hbefore : ∀ b ∈ earlier.mapIdx statementAt, b.Valid := by
    intro b hb
    obtain ⟨j, hj, rfl⟩ := List.mem_mapIdx.1 hb
    exact hearlier _ (List.getElem_mem hj)
  have hcleared := hclear.behind hown.not_valid hbefore
  exact ⟨i.ofMessage_message hsteps hkeys, _, spot, _, hall, hpath, hpath ▸ hat, hown,
    hcleared.valid, hcleared.sound⟩

/-- The second arm of a conditional negates a variable that has no name. -/
def unnamedVariable : List Document :=
  [.mapping [("type", .text "When"),
    ("condition", .mapping [("type", .text "Literal"), ("value", .bool true)]),
    ("then", .mapping [("type", .text "Block")]),
    ("ors", .list [
      .mapping [("condition", .mapping [("type", .text "Literal")]),
        ("branch", .mapping [("type", .text "Block")])],
      .mapping [("condition", .mapping [("type", .text "Unary"), ("operator", .text "-"),
          ("right", .mapping [("type", .text "Variable"), ("name", .text "")])]),
        ("branch", .mapping [("type", .text "Print")])]])]]

theorem unnamedVariable_fault :
    ∃ i, program unnamedVariable = .error i ∧
      i.message =
        "fixtures: statements[0].ors[1].condition.right (Variable): empty name: invalid node" ∧
      Path.ofMessage i.message = i.path ∧
      ∃ before spot after, programNodes unnamedVariable = before ++ spot :: after ∧
        spot.path = i.path ∧ (holding unnamedVariable).at? i.path = some spot.document ∧
        OwnFault spot.position spot.document i.nodeType i.fault ∧
        (∀ n ∈ before, spot ∉ n.nodes → n.Valid) ∧
        ∀ n ∈ before, spot ∈ n.nodes → n.SoundUpTo spot := by
  let i : Invalid :=
    ⟨[.key "statements", .index 0, .key "ors", .index 1, .key "condition", .key "right"],
      some "Variable", .emptyName "name"⟩
  have h : program unnamedVariable = .error i := by with_unfolding_all rfl
  exact ⟨i, h, by decide, program_error_names_first_fault h⟩

end Document

end Treescript
