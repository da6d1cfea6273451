import Treescript.Proofs.Coverage
import Treescript.Proofs.MovedDocuments
import Treescript.Proofs.MovedRuns
import Treescript.Proofs.ReachedMachines
import Treescript.Proofs.WholeVisits

/-!
# Where failures are located

A failure is raised at a token of the tree, which has a text, or by a native, which knows of no
place. The call of the native then locates it. So whatever a part of a run fails with has a place
unless the part is a native itself, and no call that is further out puts it elsewhere.
-/

namespace Treescript

/-- The tokens at which a node raises failures. -/
def Node.places : Node → List Token
  | .expr (.count operator _ name _) => [operator, name]
  | .expr (.literal ..) | .expr (.group ..) => []
  | .expr e => [e.token]
  | .stmt (.arm a) => [a.token]
  | .stmt _ => []

theorem Node.fits_iff {K : Token → Token → Prop} (n : Node) :
    n.Fits K ↔ ∀ t ∈ n.places, K t t := by
  cases n with
  | expr e => cases e <;> simp [Node.Fits, Node.places]
  | stmt s => cases s <;> simp [Node.Fits, Node.places]

/-- Numbers of hops are no tokens. -/
theorem Visit.tokens_annotate (look : Numbering) (v : Visit) :
    (v.annotate look).node?.map (fun n => (n.token, n.places)) =
      v.node?.map fun n => (n.token, n.places) := by
  obtain ⟨(e | s) | d | o | name, P⟩ := v
  · cases e <;> rfl
  · cases s with
    | conditional _ _ _ _ otherwise => cases otherwise <;> rfl
    | operation o => cases o; rfl
    | arm a => cases a; rfl
    | _ => rfl
  · rfl
  · cases o
    rfl
  · rfl

theorem Program.visits_of_unnumbered {p q : Program} (h : q.unnumbered = p.unnumbered) :
    (q.visits 0).map (Visit.annotate fun _ _ => none) =
      (p.visits 0).map (Visit.annotate fun _ _ => none) := by
  rw [Program.visits, Program.visits, ← Stmt.visitsOfList_annotate, ← Stmt.visitsOfList_annotate]
  exact congrArg (Stmt.visitsOfList (.top 0)) h

theorem Program.mem_nodes_iff {p : Program} {n : Node} :
    n ∈ p.nodes ↔ ∃ v ∈ p.visits 0, v.node? = some n := by
  rw [← (p.nodes_visits_perm 0).mem_iff, Visit.nodes, List.mem_filterMap]

theorem Visit.item_of_node? {v : Visit} {e : Expr} (h : v.node? = some (.expr e)) :
    v.item = .node (.expr e) := by
  obtain ⟨(e' | s) | d | o | name, P⟩ := v
  · cases e' <;> cases h <;> rfl
  · cases s <;> cases h
  · cases h
  · cases h
  · cases h

/-- Programs that differ in numbers of hops only have nodes with the same tokens. -/
theorem Program.exists_node_of_unnumbered {p q : Program} (h : q.unnumbered = p.unnumbered)
    {n : Node} (hn : n ∈ q.nodes) :
    ∃ n₀ ∈ p.nodes, n₀.token = n.token ∧ n₀.places = n.places := by
  obtain ⟨v, hv, hnode⟩ := mem_nodes_iff.1 hn
  have hmem : v.annotate (fun _ _ => none) ∈ (p.visits 0).map (Visit.annotate fun _ _ => none) :=
    visits_of_unnumbered h ▸ List.mem_map_of_mem hv
  obtain ⟨v₀, hv₀, heq⟩ := List.mem_map.1 hmem
  have htokens := congrArg (fun v => v.node?.map fun n => (n.token, n.places)) heq
  simp only [Visit.tokens_annotate, hnode, Option.map_some] at htokens
  obtain ⟨n₀, hn₀, hsame⟩ := Option.map_eq_some_iff.1 htokens
  obtain ⟨htoken, hplaces⟩ := Prod.mk.inj hsame
  exact ⟨n₀, mem_nodes_iff.2 ⟨v₀, hv₀, hn₀⟩, htoken, hplaces⟩

/-- The token of a node of one of the programs, with a text. -/
structure Program.Locates (ps : List Program) (t : Token) : Prop where
  text : t.text ≠ ""
  node : ∃ p ∈ ps, ∃ n ∈ p.nodes, n.token = t

/-- A relation between tokens of the programs. -/
def Program.Located (ps : List Program) (t t' : Token) : Prop := t' = t ∧ Program.Locates ps t

variable {ps : List Program}

theorem Program.faithful_located : Token.Faithful (Program.Located ps) := by
  constructor
  · rintro t t' ⟨rfl, -⟩
    exact .refl _
  · rintro t t' ⟨rfl, -⟩
    rfl

theorem Program.Decoded.text_ne_empty {p : Program} (h : p.Decoded) {n : Node} (hn : n ∈ p.nodes)
    {t : Token} (ht : t ∈ n.places) : t.text ≠ "" := by
  let K : Token → Token → Prop := fun t t' => t.Moved t' ∧ t.text ≠ ""
  have hK : Document.Covers K := ⟨fun _ _ h => h.1, fun _ _ h htext => ⟨h, htext⟩⟩
  obtain ⟨ds, hds⟩ := h
  rcases Document.program_alike hK (Document.SameButLines.forall₂_refl ds) with
    ⟨i, hi, -⟩ | ⟨q, q', hq, hq', hmoved⟩
  · cases hds.symm.trans hi
  · cases hds.symm.trans hq
    cases hds.symm.trans hq'
    have hfits := (Stmt.forall₂_moved_self_iff p).1 hmoved n hn
    exact (n.fits_iff.1 hfits t ht).2

/-- A count fails at its operator or at the name that it reads. -/
theorem Program.Decoded.exists_node {p : Program} (h : p.Decoded) {n : Node} (hn : n ∈ p.nodes)
    {t : Token} (ht : t ∈ n.places) : ∃ n' ∈ p.nodes, n'.token = t := by
  obtain ⟨ds, hds⟩ := h
  have hcounted := Document.program_counts hds n hn
  cases n with
  | stmt s =>
    cases s with
    | arm a => exact ⟨_, hn, (List.mem_singleton.1 ht).symm⟩
    | _ => cases ht
  | expr e =>
    cases e with
    | count operator target name hops =>
      obtain ⟨hops', rfl⟩ := hcounted
      rcases List.mem_cons.1 ht with rfl | ht
      · exact ⟨_, hn, rfl⟩
      · -- the name is the one of the target, which is visited with the count
        obtain rfl := List.mem_singleton.1 ht
        obtain ⟨⟨item, P⟩, hv, hnode⟩ := mem_nodes_iff.1 hn
        have hitem := Visit.item_of_node? hnode
        dsimp only at hitem
        subst hitem
        have htarget := (p.whole_visits 0).parts _ P hv (.variable t hops') (by simp [Expr.parts])
        exact ⟨_, mem_nodes_iff.2 ⟨_, htarget, rfl⟩, rfl⟩
    | literal | group => cases ht
    | _ => exact ⟨_, hn, (List.mem_singleton.1 ht).symm⟩

theorem Program.moved_self (hps : ∀ p ∈ ps, p.Decoded) {p q : Program} (hp : p ∈ ps)
    (hq : q.unnumbered = p.unnumbered) : Program.Moved (Program.Located ps) q q := by
  refine (Stmt.forall₂_moved_self_iff q).2 fun n hn => n.fits_iff.2 fun t ht => ⟨rfl, ?_, ?_⟩
  · obtain ⟨n₀, hn₀, -, hplaces⟩ := exists_node_of_unnumbered hq hn
    exact (hps p hp).text_ne_empty hn₀ (hplaces ▸ ht)
  · obtain ⟨n₀, hn₀, -, hplaces⟩ := exists_node_of_unnumbered hq hn
    obtain ⟨n', hn', htoken⟩ := (hps p hp).exists_node hn₀ (hplaces ▸ ht)
    exact ⟨p, hp, n', hn', htoken⟩

theorem Machine.Reached.moved_self (hps : ∀ p ∈ ps, p.Decoded) {m : Machine}
    (h : m.Reached (· ∈ ps)) : m.Moved (Program.Located ps) m := by
  induction h with
  | start => exact Machine.moved_self nofun
  | interpret _ fuel hp hq ih =>
    exact ((Program.moved_self hps hp hq).interpret Program.faithful_located ih fuel).2

variable {K : Token → Token → Prop}

namespace Job

/-- The trees of the job are related to themselves. -/
def Fits (K : Token → Token → Prop) : Job → Prop
  | expr e => Expr.Moved K e e
  | exprs es => List.Forall₂ (Expr.Moved K) es es
  | optional e? => Option.Rel (Expr.Moved K) e? e?
  | invocation .. => True
  | application closure _ => closure.Moved K closure
  | stmt s => Stmt.Moved K s s
  | stmts ss | program ss => List.Forall₂ (Stmt.Moved K) ss ss
  | arms as => List.Forall₂ (Arm.Moved K) as as
  | rounds condition body => Expr.Moved K condition condition ∧ Stmt.Moved K body body
  | members ds _ => List.Forall₂ (Definition.Moved K) ds ds

/-- What the job may fail at: at related tokens, or without a place if it is a native. -/
def Raised (K : Token → Token → Prop) : Job → Token → Token → Prop
  | invocation callee _ => callee.Raised K
  | expr _ | exprs _ | optional _ | application .. | stmt _ | stmts _ | arms _ | rounds ..
  | members .. | program _ => K

/-- Of the results only the choice of a branch has tokens. -/
def Chosen (K : Token → Token → Prop) : (t : Job) → t.Result → t.Result → Prop
  | arms _ => Option.Rel (Stmt.Moved K)
  | expr _ | exprs _ | optional _ | invocation .. | application .. | stmt _ | stmts _ | rounds ..
  | members .. | program _ => fun _ _ => True

theorem Fits.run (hK : Token.Faithful K) {t : Job} (h : t.Fits K) (fuel : Nat) :
    Run.Moved K (t.Raised K) (t.run fuel) (t.run fuel) (t.Chosen K) := by
  cases t with
  | expr e => exact (Expr.Moved.eval hK h fuel).imp fun _ _ _ => trivial
  | exprs es => exact (Expr.Moved.evalList hK h fuel).imp fun _ _ _ => trivial
  | optional e? => exact (Expr.Moved.evalOptional hK h fuel).imp fun _ _ _ => trivial
  | invocation callee args => exact (Value.moved_call hK callee args fuel).imp fun _ _ _ => trivial
  | application closure args => exact (Closure.Moved.call hK h args fuel).imp fun _ _ _ => trivial
  | stmt s => exact (Stmt.Moved.exec hK h fuel).imp fun _ _ _ => trivial
  | stmts ss => exact (Stmt.Moved.execList hK h fuel).imp fun _ _ _ => trivial
  | arms as => exact Arm.Moved.choose hK h fuel
  | rounds condition body =>
    exact (Stmt.Moved.repeat hK h.1 h.2 fuel).imp fun _ _ _ => trivial
  | members ds before =>
    exact (Definition.Moved.evalMembers hK h before fuel).imp fun _ _ _ => trivial
  | program p => exact Program.Moved.run hK h fuel

end Job

namespace Evaluation

/-- The evaluation begins with trees and operations that are related to themselves. -/
structure Fits (K : Token → Token → Prop) (x : Evaluation) : Prop where
  machine : x.machine.Moved K x.machine
  job : x.job.Fits K

variable {x y : Evaluation}

theorem Fits.ends (hK : Token.Faithful K) (h : x.Fits K) :
    x.outcome.2.Moved K x.outcome.2 ∧
      EndsMoved (x.job.Raised K) (x.job.Chosen K) x.outcome.1 x.outcome.1 :=
  h.job.run hK x.fuel x.machine x.machine h.machine

theorem Fits.failed (hK : Token.Faithful K) (h : x.Fits K) {f : Failure}
    (hf : x.outcome.1 = .error (.failure f)) : x.job.Raised K f.token f.token := by
  have hend := (h.ends hK).2
  rw [hf] at hend
  cases hend with
  | failure ht cause args => exact ht

theorem Fits.chosen (hK : Token.Faithful K) (h : x.Fits K) {a : x.job.Result} {m : Machine}
    (ha : x.outcome = (.ok a, m)) : m.Moved K m ∧ x.job.Chosen K a a := by
  obtain ⟨hm, hend⟩ := h.ends hK
  rw [ha] at hm hend
  cases hend with
  | ok hchosen => exact ⟨hm, hchosen⟩

/-- A part, and what follows it if it ends with a result. -/
theorem Fits.andThen (hK : Token.Faithful K) (fuel : Nat) (t : Job) {m : Machine}
    (hm : m.Moved K m) (ht : t.Fits K) {next : t.Result → Machine → List Evaluation}
    (hnext : ∀ a m', m'.Moved K m' → t.Chosen K a a → ∀ y ∈ next a m', y.Fits K) :
    ∀ y ∈ Evaluation.andThen ⟨fuel, t, m⟩ next, y.Fits K := by
  have hx : Evaluation.Fits K ⟨fuel, t, m⟩ := ⟨hm, ht⟩
  intro y hy
  rcases mem_andThen.1 hy with rfl | ⟨a, m', ha, hy⟩
  · exact hx
  · obtain ⟨hm', hchosen⟩ := hx.chosen hK ha
    exact hnext a m' hm' hchosen y hy

theorem Fits.single (fuel : Nat) (t : Job) {m : Machine} (hm : m.Moved K m) (ht : t.Fits K) :
    ∀ y ∈ [(⟨fuel, t, m⟩ : Evaluation)], y.Fits K :=
  List.forall_mem_singleton.2 ⟨hm, ht⟩

theorem Fits.nil : ∀ y ∈ ([] : List Evaluation), y.Fits K := List.forall_mem_nil _

end Evaluation

open Evaluation.Fits

theorem Machine.Moved.closure {m : Machine} (h : m.Moved K m) {id : Nat} {c : Closure}
    (hc : m.store.closures[id]? = some c) : c.Moved K c := by
  have hrel := h.store.closures id
  rw [hc] at hrel
  cases hrel with
  | some hc => exact hc

theorem Machine.Moved.of_closures {m m' : Machine} (h : m.Moved K m)
    (heq : m'.store.closures = m.store.closures) : m'.Moved K m' := by
  refine Machine.moved_self fun id c hc => ?_
  rw [heq] at hc
  exact h.closure hc

theorem Expr.parts_fit (hK : Token.Faithful K) {m : Machine} (hm : m.Moved K m) (fuel : Nat)
    {e : Expr} (h : Expr.Moved K e e) : ∀ y ∈ Job.parts fuel m (.expr e), y.Fits K := by
  cases h with
  | hole | literal | «variable» | self | parent | global => exact nil
  | assign _ h | unary _ h | count _ h | group _ h | get h => exact single fuel (.expr _) hm h
  | binary hleft _ hright =>
    exact andThen hK fuel (.expr _) hm hleft fun _ m₁ h₁ _ => single fuel (.expr _) h₁ hright
  | logical hleft _ hright =>
    refine andThen hK fuel (.expr _) hm hleft fun _ m₁ h₁ _ => ?_
    split
    · exact nil
    · exact single fuel (.expr _) h₁ hright
  | set hobject _ hvalue =>
    exact andThen hK fuel (.expr _) hm hvalue fun _ m₁ h₁ _ => single fuel (.expr _) h₁ hobject
  | call hcallee _ hargs =>
    refine andThen hK fuel (.expr _) hm hcallee fun callee m₁ h₁ _ => ?_
    refine andThen hK fuel (.exprs _) h₁ hargs fun args m₂ h₂ _ => ?_
    split
    · exact single fuel (.invocation callee args) h₂ trivial
    · exact nil

theorem Value.parts_fit {m : Machine} (hm : m.Moved K m) (fuel : Nat) (callee : Value)
    (args : List Value) : ∀ y ∈ Job.parts fuel m (.invocation callee args), y.Fits K := by
  cases callee with
  | operation id =>
    simp only [Job.parts]
    cases hc : m.store.closures[id]? with
    | none => exact nil
    | some closure => exact single fuel (.application closure args) hm (hm.closure hc)
  | type t =>
    simp only [Job.parts]
    cases m.store.pilot? t with
    | none => exact nil
    | some pilot =>
      rw [Option.bind_some]
      cases hc : m.store.closures[pilot]? with
      | none => exact nil
      | some method =>
        have hmethod : method.Moved K method := hm.closure hc
        have hmade : m.addHolder.Moved K m.addHolder := hm.of_closures rfl
        have hbound := hmade.of_store
          (hmade.store.bindSelf hmethod (.holder t m.store.holders.size)).1
        exact single fuel (.application (method.bound m) args) hbound
          ⟨hmethod.declaration, rfl, rfl⟩
  | none | bool | int | float | text | native | holder => exact nil

theorem Stmt.parts_fit (hK : Token.Faithful K) {m : Machine} (hm : m.Moved K m) (fuel : Nat)
    {s : Stmt} (h : Stmt.Moved K s s) : ∀ y ∈ Job.parts fuel m (.stmt s), y.Fits K := by
  cases h with
  | hole | operation | arm | object | «enum» => exact nil
  | expression _ hvalue | print _ hvalue => exact single fuel (.expr _) hm hvalue
  | define hd => exact single fuel (.optional _) hm hd.initial
  | block _ hbody => exact single fuel (.stmts _) (hm.of_closures rfl) hbody
  | conditional _ hcondition hbranch harms hotherwise =>
    refine andThen hK fuel (.expr _) hm hcondition fun v m₁ h₁ _ => ?_
    split
    · exact single fuel (.stmt _) h₁ hbranch
    · refine andThen hK fuel (.arms _) h₁ harms fun chosen m₂ h₂ hchosen => ?_
      match chosen, hchosen, hotherwise with
      | _, .some hchosen, _ => exact single fuel (.stmt _) h₂ hchosen
      | _, .none, .some hlast => exact single fuel (.stmt _) h₂ hlast
      | _, .none, .none => exact nil
  | loop _ hcondition hbody => exact single fuel (.rounds _ _) hm ⟨hcondition, hbody⟩
  | «return» _ hvalue => exact single fuel (.optional _) hm hvalue
  | form _ _ hmembers => exact single fuel (.members _ _) (hm.of_closures rfl) hmembers

theorem Job.parts_fit (hK : Token.Faithful K) {m : Machine} (hm : m.Moved K m) (fuel : Nat)
    {t : Job} (h : t.Fits K) : ∀ y ∈ t.parts fuel m, y.Fits K := by
  match t with
  | .expr e => exact Expr.parts_fit hK hm fuel h
  | .exprs [] | .optional none | .stmts [] | .arms [] | .members [] _ | .program _ =>
    exact nil
  | .exprs (e :: es) =>
    obtain ⟨he, hes⟩ := List.forall₂_cons.1 h
    exact andThen hK fuel (.expr e) hm he fun _ m₁ h₁ _ => single fuel (.exprs es) h₁ hes
  | .optional (some e) =>
    cases h with
    | some he => exact single fuel (.expr e) hm he
  | .invocation callee args => exact Value.parts_fit hm fuel callee args
  | .application closure args =>
    exact single fuel (.stmts _) (hm.of_closures rfl) h.declaration.body
  | .stmt s => exact Stmt.parts_fit hK hm fuel h
  | .stmts (s :: ss) =>
    obtain ⟨hs, hss⟩ := List.forall₂_cons.1 h
    refine andThen hK fuel (.stmt s) hm hs fun completion m₁ h₁ _ => ?_
    cases completion with
    | normal => exact single fuel (.stmts ss) h₁ hss
    | returned v => exact nil
  | .arms (⟨_, condition, branch⟩ :: rest) =>
    obtain ⟨⟨_, hcondition, -⟩, hrest⟩ := List.forall₂_cons.1 h
    exact andThen hK fuel (.expr condition) hm hcondition fun _ m₁ h₁ _ =>
      single fuel (.arms rest) h₁ hrest
  | .rounds condition body =>
    refine andThen hK fuel (.expr condition) hm h.1 fun v m₁ h₁ _ => ?_
    split
    · refine andThen hK fuel (.stmt body) h₁ h.2 fun completion m₂ h₂ _ => ?_
      cases completion with
      | normal => exact single fuel (.rounds condition body) h₂ h
      | returned v => exact nil
    · exact nil
  | .members (d :: rest) before =>
    obtain ⟨hd, hrest⟩ := List.forall₂_cons.1 h
    refine andThen hK fuel (.optional d.initial) hm hd.initial fun v m₁ h₁ _ => ?_
    exact single fuel (.members rest _) (h₁.of_closures rfl) hrest

namespace Evaluation

variable {x y : Evaluation}

theorem Fits.part (hK : Token.Faithful K) (h : x.Fits K) : ∀ y ∈ x.parts, y.Fits K := by
  obtain ⟨hm, hjob⟩ := h
  match x with
  | ⟨_, .program [], _⟩ => exact nil
  | ⟨fuel, .program (s :: rest), m⟩ =>
    obtain ⟨hs, hrest⟩ := List.forall₂_cons.1 hjob
    exact andThen hK fuel (.stmt s) hm hs fun _ m₁ h₁ _ => single fuel (.program rest) h₁ hrest
  | ⟨fuel, .expr _, m⟩ | ⟨fuel, .exprs _, m⟩ | ⟨fuel, .optional _, m⟩
  | ⟨fuel, .invocation .., m⟩ | ⟨fuel, .application .., m⟩ | ⟨fuel, .stmt _, m⟩
  | ⟨fuel, .stmts _, m⟩ | ⟨fuel, .arms _, m⟩ | ⟨fuel, .rounds .., m⟩ | ⟨fuel, .members .., m⟩ =>
    cases fuel with
    | zero => exact nil
    | succ fuel => exact Job.parts_fit hK hm fuel hjob

theorem Fits.leads (hK : Token.Faithful K) (h : x.Fits K) {calls : List Token}
    (hlead : x.Leads calls y) : y.Fits K := by
  induction hlead with
  | here => exact h
  | part hy _ ih => exact ih (h.part hK _ hy)

end Evaluation

/-- Only a native fails without a place. -/
theorem Job.raised_eq {t : Job} (h : ∀ n args, t ≠ .invocation (.native n) args) :
    t.Raised K = K := by
  cases t with
  | invocation callee args =>
    cases callee with
    | native n => exact absurd rfl (h n args)
    | _ => rfl
  | _ => rfl

/-- Only calls invoke. -/
theorem Job.exists_call {fuel : Nat} {m : Machine} {t : Job} {y : Evaluation}
    (h : y ∈ t.parts fuel m) {callee : Value} {args : List Value}
    (hy : y.job = .invocation callee args) :
    ∃ callee paren es, t = .expr (.call callee paren es) := by
  unfold Job.parts at h
  split at h <;> grind [Evaluation.mem_andThen]

theorem Evaluation.exists_call {x y : Evaluation} (h : y ∈ x.parts) {callee : Value}
    {args : List Value} (hy : y.job = .invocation callee args) :
    ∃ callee paren es, x.job = .expr (.call callee paren es) := by
  by_cases hx : ∃ p, x.job = .program p
  · obtain ⟨fuel, t, m⟩ := x
    obtain ⟨p, rfl⟩ := hx
    cases p with
    | nil => cases h
    | cons s rest =>
      rcases mem_andThen.1 h with rfl | ⟨_, _, -, h⟩
      · cases hy
      · obtain rfl := List.mem_singleton.1 h
        cases hy
  · obtain ⟨fuel, -, hpart⟩ := mem_parts h fun p hp => hx ⟨p, hp⟩
    exact Job.exists_call hpart hy

theorem Failure.locatedAll_of_text {f : Failure} (h : f.token.text ≠ "") (tokens : List Token) :
    f.locatedAll tokens = f := by
  induction tokens with
  | nil => rfl
  | cons token rest ih =>
    have hplaced : f.locatedAt token = f := by simp [Failure.locatedAt, Token.isBlank, h]
    rw [Failure.locatedAll, List.foldl_cons, hplaced]
    exact ih

/-- A failure with a place ends all the evaluations around it as it is. -/
theorem Evaluation.Leads.fails_with {x y : Evaluation} {calls : List Token} (h : x.Leads calls y)
    {f : Failure} (hy : y.outcome.1 = .error (.failure f)) (hf : f.token.text ≠ "") :
    x.outcome.1 = .error (.failure f) := by
  rw [h.stops (Prod.ext hy rfl), Stop.locatedAll_failure, Failure.locatedAll_of_text hf]

/-- What a native fails with has no place, so that it gets the one of the call. -/
theorem Evaluation.Fits.native_failed (hK : Token.Faithful K) {x y : Evaluation} (h : x.Fits K)
    (hy : y ∈ x.parts) {n : Native} {args : List Value}
    (hjob : y.job = .invocation (.native n) args) {f : Failure}
    (hf : y.outcome.1 = .error (.failure f)) :
    ∃ callee paren es, x.job = .expr (.call callee paren es) ∧
      x.outcome.1 = .error (.failure { f with token := paren }) ∧ K paren paren := by
  obtain ⟨callee, paren, es, hcall⟩ := Evaluation.exists_call hy hjob
  have hblank : f.token = .blank := by
    have hraised := (h.part hK y hy).failed hK hf
    rw [hjob] at hraised
    exact hraised.1
  have hlocated : x.outcome.1 = .error (.failure { f with token := paren }) := by
    have hlead : x.Leads _ y := .part hy (.here y)
    rw [hlead.stops (Prod.ext hf rfl), hcall, hjob, Stop.locatedAll_failure]
    simp [Job.calls, Failure.locatedAll, Failure.locatedAt, hblank, Token.isBlank, Token.blank]
  have hparen := h.failed hK hlocated
  rw [hcall] at hparen
  exact ⟨callee, paren, es, hcall, hlocated, hparen⟩

theorem Machine.Reached.failures_located (hps : ∀ p ∈ ps, p.Decoded) {m : Machine}
    (hm : m.Reached (· ∈ ps)) {p q : Program} (hp : p ∈ ps) (hq : q.unnumbered = p.unnumbered)
    (fuel : Nat) :
    (∀ a, (m.interpret fuel q).1 = .aborted a →
      a.token.text ≠ "" ∧ ∃ p ∈ ps, ∃ n ∈ p.nodes, n.token = a.token) ∧
    (∀ calls x y n args f, Evaluation.Leads ⟨fuel, .program q, m⟩ calls x → y ∈ x.parts →
      y.job = .invocation (.native n) args → y.outcome.1 = .error (.failure f) →
        ∃ callee paren es a, x.job = .expr (.call callee paren es) ∧
          x.outcome.1 = .error (.failure { f with token := paren }) ∧
          (m.interpret fuel q).1 = .aborted a ∧ a.token = paren ∧ a.message = f.cause.message) ∧
    ∀ calls x y f, Evaluation.Leads ⟨fuel, .program q, m⟩ calls x → y ∈ x.parts →
      (∀ n args, y.job ≠ .invocation (.native n) args) → y.outcome.1 = .error (.failure f) →
        x.outcome.1 = .error (.failure f) := by
  have hK : Token.Faithful (Program.Located ps) := Program.faithful_located
  have hroot : Evaluation.Fits (Program.Located ps) ⟨fuel, .program q, m⟩ :=
    ⟨hm.moved_self hps, Program.moved_self hps hp hq⟩
  refine ⟨fun a ha => ?_, ?_, ?_⟩
  · obtain ⟨f, hf⟩ := Machine.aborted_iff.1 ⟨a, ha⟩
    obtain ⟨-, htext, hnode⟩ := hroot.failed hK hf
    obtain ⟨record, hrun⟩ := Machine.interpret_of_failure (Prod.ext hf rfl)
    rw [hrun] at ha
    cases ha
    exact ⟨htext, hnode⟩
  · intro calls x y n args f hx hy hjob hf
    obtain ⟨callee, paren, es, hcall, hlocated, -, htext, -⟩ :=
      (hroot.leads hK hx).native_failed hK hy hjob hf
    have hend := hx.fails_with hlocated htext
    obtain ⟨record, hrun⟩ := Machine.interpret_of_failure (Prod.ext hend rfl)
    exact ⟨callee, paren, es, _, hcall, hlocated, congrArg Prod.fst hrun, rfl, rfl⟩
  · intro calls x y f hx hy hnative hf
    have hraised := ((hroot.leads hK hx).part hK y hy).failed hK hf
    rw [Job.raised_eq hnative] at hraised
    have hlead : x.Leads _ y := .part hy (.here y)
    exact hlead.fails_with hf hraised.2.text

/-- An operation on line 0 that calls `len` without a text, and a call of it on line 7. -/
def lenDocument : List Document :=
  [.mapping [("type", .text "Op"), ("line", .int 0), ("name", .text "f"), ("body", .list [
      .mapping [("type", .text "Expression"), ("expression", .mapping [("type", .text "Call"),
        ("callee", .mapping [("type", .text "Variable"), ("name", .text "len")]),
        ("args", .list [.mapping [("type", .text "Literal")]])])]])],
    .mapping [("type", .text "Expression"), ("line", .int 7), ("expression", .mapping [
      ("type", .text "Call"),
      ("callee", .mapping [("type", .text "Variable"), ("name", .text "f")])])]]

def lenCall : Expr :=
  .call (.variable ⟨.identifier, "len", 0, .null⟩ none) ⟨.mark .close, ")", 0, .null⟩
    [.literal ⟨.keyword .none, "none", 0, .null⟩ .null]

def lenOperation : Operation :=
  ⟨⟨.keyword .operation, "op", 0, .null⟩, ⟨.identifier, "f", 0, .null⟩, [],
    [.expression ⟨.identifier, ")", 0, .null⟩ lenCall]⟩

def lenCaller : Expr :=
  .call (.variable ⟨.identifier, "f", 7, .null⟩ none) ⟨.mark .close, ")", 7, .null⟩ []

def lenCalled : Program :=
  [.operation lenOperation, .expression ⟨.identifier, ")", 7, .null⟩ lenCaller]

theorem lenCalled_decoded : Document.program lenDocument = .ok lenCalled := by
  with_unfolding_all rfl

/-- The failure of `len` is located by its own call, on line 0, and not by the call around it. -/
theorem lenCalled_located :
    ∃ a, ((Machine.start ⟨fun _ => 0, 0⟩ ([Module.text].flatMap Module.entries)).interpret 9
        lenCalled).1 = .aborted a ∧
      a.token = ⟨.mark .close, ")", 0, .null⟩ ∧ a.message = "len expects a string, got NONE" := by
  let m := Machine.start ⟨fun _ => 0, 0⟩ ([Module.text].flatMap Module.entries)
  have hm : m.Reached (· ∈ [lenCalled]) := .start ⟨fun _ => 0, 0⟩ [.text]
  have hdecoded : ∀ p ∈ [lenCalled], p.Decoded :=
    List.forall_mem_singleton.2 ⟨_, lenCalled_decoded⟩
  obtain ⟨-, hnative, -⟩ := hm.failures_located hdecoded (List.mem_singleton_self _) rfl 9
  let declared : Machine := (((Stmt.operation lenOperation).exec 9).run m).2
  let entered : Machine := declared.enter 0 []
  let calling : Evaluation := ⟨3, .expr lenCall, entered⟩
  have hcaller : Evaluation.Leads ⟨8, .expr lenCaller, declared⟩ [⟨.mark .close, ")", 7, .null⟩]
      calling :=
    .part (y := ⟨7, .invocation (.operation 0) [], declared⟩) (.tail _ (.tail _ (.head _))) <|
      .part (y := ⟨6, .application ⟨lenOperation, 0, false⟩ [], declared⟩) (.head _) <|
        .part (y := ⟨5, .stmts lenOperation.body, entered⟩) (.head _) <|
          .part (y := ⟨4, .stmt (.expression ⟨.identifier, ")", 0, .null⟩ lenCall), entered⟩)
            (.head _) (.part (.head _) (.here calling))
  have hlead : Evaluation.Leads ⟨9, .program lenCalled, m⟩ [⟨.mark .close, ")", 7, .null⟩]
      calling :=
    .part (y := ⟨9, .program lenCalled.tail, declared⟩) (.tail _ (.head _)) <|
      .part (y := ⟨9, .stmt (.expression ⟨.identifier, ")", 7, .null⟩ lenCaller), declared⟩)
        (.head _) (.part (.head _) hcaller)
  obtain ⟨callee, paren, es, a, hjob, -, habort, htoken, hmessage⟩ :=
    hnative _ _ ⟨2, .invocation (.native .len) [.none], entered⟩ .len [.none]
      ⟨.blank, .nativeText "len" .none, none⟩ hlead (.tail _ (.tail _ (.head _))) rfl rfl
  cases hjob
  exact ⟨a, habort, htoken, hmessage⟩

end Treescript
