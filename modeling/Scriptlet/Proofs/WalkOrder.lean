import Scriptlet.Proofs.ProgramReading
import Scriptlet.Proofs.Rescanning
import Scriptlet.Tree.Nodes

/-!
The walk through a tree. Every node of a program has a path, the fields that lead to it from the
top. A walk meets the node of every path, each once, and none before the nodes around it. The
names that it meets as expressions are the identifiers of the text, in their order, without those
that a declaration or an assignment gives a value to.
-/

namespace Scriptlet

namespace Node

inductive Field where
  | inner
  | operand
  | left
  | right
  | value
  | callee
  | argument (index : Nat)
  | condition
  | thenBranch
  | elseBranch
  | initializer
  | increment
  | body
  | statement (index : Nat)
  deriving DecidableEq

/-- The fields that lead to a node, the outermost first. -/
abbrev Path := List Field

def part? : Node → Field → Option Node
  | .expr (.grouping inner), .inner => some (.expr inner)
  | .expr (.unary _ operand), .operand => some (.expr operand)
  | .expr (.binary left _ _), .left => some (.expr left)
  | .expr (.binary _ _ right), .right => some (.expr right)
  | .expr (.logical left _ _), .left => some (.expr left)
  | .expr (.logical _ _ right), .right => some (.expr right)
  | .expr (.assignment _ value), .value => some (.expr value)
  | .expr (.call callee _ _), .callee => some (.expr callee)
  | .expr (.call _ _ arguments), .argument i => arguments[i]?.map .expr
  | .stmt (.expression value), .value => some (.expr value)
  | .stmt (.print _ value), .value => some (.expr value)
  | .stmt (.block body), .statement i => body[i]?.map .stmt
  | .stmt (.conditional condition _ _), .condition => some (.expr condition)
  | .stmt (.conditional _ thenBranch _), .thenBranch => some (.stmt thenBranch)
  | .stmt (.conditional _ _ elseBranch), .elseBranch => elseBranch.map .stmt
  | .stmt (.whileLoop _ condition _), .condition => some (.expr condition)
  | .stmt (.whileLoop _ _ body), .body => some (.stmt body)
  | .stmt (.forLoop _ initializer _ _ _), .initializer => initializer.map .stmt
  | .stmt (.forLoop _ _ condition _ _), .condition => condition.map .expr
  | .stmt (.forLoop _ _ _ increment _), .increment => increment.map .expr
  | .stmt (.forLoop _ _ _ _ body), .body => some (.stmt body)
  | .stmt (.variableDecl _ initializer _), .initializer => initializer.map .expr
  | .stmt (.functionDecl _ _ body), .statement i => body[i]?.map .stmt
  | .stmt (.returnStmt _ value), .value => value.map .expr
  | _, _ => none

def at? (n : Node) : Path → Option Node
  | [] => some n
  | field :: rest => (n.part? field).bind (·.at? rest)

end Node

/-- The node at the end of a path. The program itself is no node. -/
def Program.at? (p : Program) : Node.Path → Option Node
  | .statement i :: rest => p[i]?.bind fun s => (Node.stmt s).at? rest
  | _ => none

namespace Node

def nodes : Node → List Node
  | .expr e => e.nodes
  | .stmt s => s.nodes

@[simp] theorem nodes_expr (e : Expr) : (Node.expr e).nodes = e.nodes := rfl

@[simp] theorem nodes_stmt (s : Stmt) : (Node.stmt s).nodes = s.nodes := rfl

def numbered (field : Nat → Field) (ns : List Node) : List (Field × Node) :=
  ns.zipIdx.map fun x => (field x.2, x.1)

def parts : Node → List (Field × Node)
  | .expr (.literal _) => []
  | .expr (.identifier _) => []
  | .expr (.grouping inner) => [(.inner, .expr inner)]
  | .expr (.unary _ operand) => [(.operand, .expr operand)]
  | .expr (.binary left _ right) => [(.left, .expr left), (.right, .expr right)]
  | .expr (.logical left _ right) => [(.left, .expr left), (.right, .expr right)]
  | .expr (.assignment _ value) => [(.value, .expr value)]
  | .expr (.call callee _ arguments) =>
    (.callee, .expr callee) :: numbered .argument (arguments.map .expr)
  | .stmt (.expression value) => [(.value, .expr value)]
  | .stmt (.print _ value) => [(.value, .expr value)]
  | .stmt (.block body) => numbered .statement (body.map .stmt)
  | .stmt (.conditional condition thenBranch elseBranch) =>
    (.condition, .expr condition) :: (.thenBranch, .stmt thenBranch) ::
      elseBranch.toList.map fun branch => (.elseBranch, .stmt branch)
  | .stmt (.whileLoop _ condition body) => [(.condition, .expr condition), (.body, .stmt body)]
  | .stmt (.forLoop _ initializer condition increment body) =>
    (initializer.toList.map fun first => (.initializer, .stmt first)) ++
      (condition.toList.map fun e => (.condition, .expr e)) ++
      (increment.toList.map fun e => (.increment, .expr e)) ++ [(.body, .stmt body)]
  | .stmt (.variableDecl _ initializer _) =>
    initializer.toList.map fun e => (.initializer, .expr e)
  | .stmt (.functionDecl _ _ body) => numbered .statement (body.map .stmt)
  | .stmt (.returnStmt _ value) => value.toList.map fun e => (.value, .expr e)

theorem mem_numbered {field : Nat → Field} {ns : List Node} {f : Field} {n : Node} :
    (f, n) ∈ numbered field ns ↔ ∃ i, f = field i ∧ ns[i]? = some n := by
  simp only [numbered, List.mem_map, Prod.exists, List.mem_zipIdx_iff_getElem?, Prod.mk.injEq]
  constructor
  · rintro ⟨_, i, h, rfl, rfl⟩
    exact ⟨i, rfl, h⟩
  · rintro ⟨i, rfl, h⟩
    exact ⟨n, i, h, rfl, rfl⟩

theorem nodup_numbered {field : Nat → Field} (h : field.Injective) (ns : List Node) :
    ((numbered field ns).map Prod.fst).Nodup := by
  have hfields : (numbered field ns).map Prod.fst = (ns.zipIdx.map Prod.snd).map field := by
    rw [numbered, List.map_map, List.map_map]
    rfl
  rw [hfields, List.zipIdx_map_snd]
  exact List.Nodup.map h List.nodup_range'

theorem flatMap_numbered (field : Nat → Field) (ns : List Node) :
    (numbered field ns).flatMap (·.2.nodes) = ns.flatMap nodes := by
  have hnodes : (numbered field ns).map Prod.snd = ns := by
    rw [numbered, List.map_map]
    exact List.zipIdx_map_fst 0 ns
  nth_rewrite 2 [← hnodes]
  rw [List.flatMap_map]

theorem part?_of_mem {n part : Node} {f : Field} (h : (f, part) ∈ n.parts) :
    n.part? f = some part := by
  cases n with
  | expr e =>
    cases e <;> simp only [parts, List.mem_cons, List.not_mem_nil, or_false, Prod.mk.injEq,
      mem_numbered] at h <;> grind [part?]
  | stmt s =>
    cases s <;> simp only [parts, List.mem_cons, List.mem_append, List.mem_map, Option.mem_toList,
      List.not_mem_nil, or_false, Prod.mk.injEq, mem_numbered] at h <;> grind [part?]

theorem mem_of_part? {n part : Node} {f : Field} (h : n.part? f = some part) :
    (f, part) ∈ n.parts := by
  fun_cases part? n f <;> simp_all [parts, part?, mem_numbered]

theorem nodup_parts (n : Node) : (n.parts.map Prod.fst).Nodup := by
  have harguments : Field.argument.Injective := fun _ _ => Field.argument.inj
  have hstatements : Field.statement.Injective := fun _ _ => Field.statement.inj
  cases n with
  | expr e =>
    cases e with
    | call callee paren arguments =>
      refine List.nodup_cons.2 ⟨?_, nodup_numbered harguments _⟩
      simp [mem_numbered]
    | _ => simp [parts]
  | stmt s =>
    cases s with
    | block body => exact nodup_numbered hstatements _
    | functionDecl name parameters body => exact nodup_numbered hstatements _
    | conditional condition thenBranch elseBranch => cases elseBranch <;> simp [parts]
    | forLoop keyword initializer condition increment body =>
      cases initializer <;> cases condition <;> cases increment <;> simp [parts]
    | variableDecl name initializer constant => cases initializer <;> simp [parts]
    | returnStmt keyword value => cases value <;> simp [parts]
    | _ => simp [parts]

theorem nodesOfAll_exprs (es : List Expr) :
    Expr.nodesOfAll es = (es.map Node.expr).flatMap nodes := by
  induction es with
  | nil => rfl
  | cons e es ih => simp [Expr.nodesOfAll, ih]

theorem nodesOfAll_stmts (ss : List Stmt) :
    Stmt.nodesOfAll ss = (ss.map Node.stmt).flatMap nodes := by
  induction ss with
  | nil => rfl
  | cons s ss ih => simp [Stmt.nodesOfAll, ih]

theorem nodes_eq (n : Node) : n.nodes = n :: n.parts.flatMap (·.2.nodes) := by
  cases n with
  | expr e =>
    cases e <;> simp [parts, Expr.nodes, flatMap_numbered, nodesOfAll_exprs]
  | stmt s =>
    cases s with
    | conditional condition thenBranch elseBranch =>
      cases elseBranch <;> simp [parts, Stmt.nodes]
    | forLoop keyword initializer condition increment body =>
      cases initializer <;> cases condition <;> cases increment <;>
        simp [parts, Stmt.nodes, Expr.nodesOf?]
    | variableDecl name initializer constant =>
      cases initializer <;> simp [parts, Stmt.nodes, Expr.nodesOf?]
    | returnStmt keyword value =>
      cases value <;> simp [parts, Stmt.nodes, Expr.nodesOf?]
    | _ => simp [parts, Stmt.nodes, flatMap_numbered, nodesOfAll_stmts]

theorem length_nodes_lt {n : Node} {part : Field × Node} (h : part ∈ n.parts) :
    part.2.nodes.length < n.nodes.length := by
  have hsub : part.2.nodes.Sublist (n.parts.flatMap (·.2.nodes)) :=
    List.sublist_flatten_of_mem (List.mem_map_of_mem h)
  rw [n.nodes_eq, List.length_cons]
  exact Nat.lt_succ_of_le hsub.length_le

@[elab_as_elim]
theorem partInduction {motive : Node → Prop}
    (step : ∀ n : Node, (∀ part ∈ n.parts, motive part.2) → motive n) (n : Node) : motive n :=
  step n fun part _ => partInduction step part.2
termination_by n.nodes.length
decreasing_by exact length_nodes_lt ‹_›

/-- The paths of the nodes that a walk meets, in its order: every path once, and none before a
path around it. -/
structure Traces (at? : Path → Option Node) (ns : List Node) (paths : List Path) : Prop where
  nodes : paths.map at? = ns.map some
  complete : ∀ path, (at? path).isSome → path ∈ paths
  outward : paths.Pairwise fun earlier later => ¬ later <+: earlier

theorem Traces.nodup {at? : Path → Option Node} {ns : List Node} {paths : List Path}
    (h : Traces at? ns paths) : paths.Nodup := by
  refine h.outward.imp fun hnot heq => hnot ?_
  rw [heq]

theorem Traces.mem_iff {at? : Path → Option Node} {ns : List Node} {paths : List Path}
    (h : Traces at? ns paths) {n : Node} : n ∈ ns ↔ ∃ path, at? path = some n := by
  have hmem : some n ∈ paths.map at? ↔ n ∈ ns := by simp [h.nodes]
  rw [← hmem, List.mem_map]
  constructor
  · rintro ⟨path, -, hpath⟩
    exact ⟨path, hpath⟩
  · rintro ⟨path, hpath⟩
    exact ⟨path, h.complete path (by simp [hpath]), hpath⟩

theorem at?_cons {n part : Node} {f : Field} (h : (f, part) ∈ n.parts) (rest : Path) :
    n.at? (f :: rest) = part.at? rest := by
  rw [at?, part?_of_mem h, Option.bind_some]

theorem Traces.of_parts {n : Node} {paths : Field × Node → List Path}
    (h : ∀ part ∈ n.parts, Traces part.2.at? part.2.nodes (paths part)) :
    Traces n.at? n.nodes ([] :: n.parts.flatMap fun part => (paths part).map (part.1 :: ·)) where
  nodes := by
    rw [n.nodes_eq, List.map_cons, List.map_cons, List.map_flatMap, List.map_flatMap]
    congr 1
    refine List.flatMap_congr fun part hpart => ?_
    rw [List.map_map, ← (h part hpart).nodes]
    exact List.map_congr_left fun rest _ => at?_cons hpart rest
  complete := by
    intro path hpath
    cases path with
    | nil => exact List.mem_cons_self
    | cons f rest =>
      cases hpart : n.part? f with
      | none => simp [at?, hpart] at hpath
      | some part =>
        have hmem := mem_of_part? hpart
        rw [at?_cons hmem] at hpath
        exact List.mem_cons_of_mem _ (List.mem_flatMap.2
          ⟨_, hmem, List.mem_map_of_mem ((h _ hmem).complete rest hpath)⟩)
  outward := by
    refine List.pairwise_cons.2 ⟨?_, List.pairwise_flatMap.2 ⟨?_, ?_⟩⟩
    · intro later hlater
      obtain ⟨part, -, hrest⟩ := List.mem_flatMap.1 hlater
      obtain ⟨rest, -, rfl⟩ := List.mem_map.1 hrest
      simp
    · intro part hpart
      refine List.pairwise_map.2 ((h part hpart).outward.imp fun hnot hprefix => hnot ?_)
      exact (List.prefix_cons_inj part.1).1 hprefix
    · -- paths in different parts begin with different fields
      refine (List.pairwise_map.1 n.nodup_parts).imp fun hne => ?_
      simp only [List.mem_map]
      rintro _ ⟨rest, -, rfl⟩ _ ⟨rest', -, rfl⟩ hprefix
      exact hne (List.cons_prefix_cons.1 hprefix).1.symm

theorem exists_traces (n : Node) : ∃ paths, Traces n.at? n.nodes ([] :: paths) := by
  induction n using partInduction with
  | step n ih =>
    choose! paths h using ih
    exact ⟨_, Traces.of_parts h⟩

theorem at?_program (p : Program) {path : Path} (h : path ≠ []) :
    p.at? path = (Node.stmt (.block p)).at? path := by
  cases path with
  | nil => exact absurd rfl h
  | cons f rest =>
    cases f with
    | statement i => simp [Program.at?, at?, part?, Option.bind_map]
    | _ => rfl

/-- A program is walked through like the block of its statements, without the block itself. -/
theorem exists_traces_program (p : Program) :
    ∃ paths, Traces p.at? (Stmt.nodesOfAll p) paths := by
  obtain ⟨paths, hnodes, hcomplete, houtward⟩ := exists_traces (.stmt (.block p))
  obtain ⟨hfirst, houtward⟩ := List.pairwise_cons.1 houtward
  have hinside : ∀ path ∈ paths, path ≠ [] := by
    rintro _ hpath rfl
    exact hfirst [] hpath List.nil_prefix
  refine ⟨paths, ?_, ?_, houtward⟩
  · rw [List.map_congr_left fun path hpath => at?_program p (hinside path hpath)]
    simpa [at?, Stmt.nodes] using hnodes
  · intro path hpath
    have hne : path ≠ [] := by
      rintro rfl
      cases hpath
    rw [at?_program p hne] at hpath
    exact (List.mem_cons.1 (hcomplete path hpath)).resolve_left hne

/-- The names that a node gives a value to. -/
def named : Node → List Token
  | .expr (.assignment name _) => [name]
  | .stmt (.variableDecl name _ _) => [name]
  | .stmt (.functionDecl name parameters _) => name :: parameters
  | _ => []

end Node

/-- Whether a token is the name in a declaration, a parameter or the target of an assignment. -/
def Program.Names (p : Program) (t : Token) : Prop :=
  ∃ path node, p.at? path = some node ∧ t ∈ node.named

def identifiers (tokens : List Token) : List Token := tokens.filter (·.kind = .identifier)

theorem identifiers_append (first second : List Token) :
    identifiers (first ++ second) = identifiers first ++ identifiers second :=
  List.filter_append ..

/-- The identifiers among the tokens of a row of slots. -/
def Naming (slots : List Slot) (names : List Token) : Prop :=
  ∀ tokens, Fits slots tokens → identifiers tokens = names

namespace Naming

variable {slots more : List Slot} {names others : List Token}

theorem append (h : Naming slots names) (k : Naming more others) :
    Naming (slots ++ more) (names ++ others) := by
  intro tokens hf
  obtain ⟨first, second, rfl, hfirst, hsecond⟩ := fits_append.1 hf
  rw [identifiers_append, h first hfirst, k second hsecond]

theorem name {t : Token} (h : t.kind = .identifier) : Naming [.token t] [t] := by
  intro tokens hf
  obtain ⟨_, rfl, rfl⟩ := fits_singleton.1 hf
  simp [identifiers, h]

theorem none (h : Each (·.wants ≠ .identifier) slots) : Naming slots [] := by
  intro tokens hf
  exact List.filter_eq_nil_iff.2 fun t ht => by simpa using hf.kind_ne h t ht

theorem before {slot : Slot} (h : slot.wants ≠ .identifier) (k : Naming slots names) :
    Naming (slot :: slots) names := by
  have hslot : Naming [slot] [] := none (by simpa using h)
  exact hslot.append k

theorem parameters {ts : List Token} (h : ∀ t ∈ ts, t.kind = .identifier) :
    Naming (Slot.separated (ts.map fun t => [.token t])) ts := by
  induction ts with
  | nil => exact none each_nil
  | cons t ts ih =>
    obtain ⟨ht, hts⟩ := List.forall_mem_cons.1 h
    cases ts with
    | nil => exact name ht
    | cons u ts =>
      rw [List.map_cons, List.map_cons, separated_cons_cons]
      exact (name ht).append (before (by decide) (ih hts))

end Naming

/-- The identifiers among the tokens of a row of slots are the names that nodes read, in their
order, and the names that they give a value to. -/
def Accounts (ns : List Node) (slots : List Slot) : Prop :=
  ∀ tokens, Fits slots tokens →
    (ns.filterMap Node.identifier?).Sublist (identifiers tokens) ∧
    (identifiers tokens).Perm (ns.filterMap Node.identifier? ++ ns.flatMap Node.named)

namespace Accounts

variable {n : Node} {ns ms : List Node} {slots more : List Slot}

theorem append (h : Accounts ns slots) (k : Accounts ms more) :
    Accounts (ns ++ ms) (slots ++ more) := by
  intro tokens hf
  obtain ⟨first, second, rfl, hfirst, hsecond⟩ := fits_append.1 hf
  obtain ⟨hreads, hall⟩ := h first hfirst
  obtain ⟨kreads, kall⟩ := k second hsecond
  rw [identifiers_append, List.filterMap_append, List.flatMap_append]
  refine ⟨hreads.append kreads, (hall.append kall).trans ?_⟩
  rw [List.append_assoc, List.append_assoc]
  exact (List.perm_append_comm_assoc ..).append_left _

theorem silent (h : Each (·.wants ≠ .identifier) slots) : Accounts [] slots := by
  intro tokens hf
  rw [Naming.none h tokens hf]
  exact ⟨.slnil, .nil⟩

theorem single (hn : n.identifier? = none) (h : Naming slots n.named) : Accounts [n] slots := by
  intro tokens hf
  rw [h tokens hf]
  simp [hn]

theorem reading {name : Token} (h : name.kind = .identifier) :
    Accounts [.expr (.identifier name)] [.token name] := by
  intro tokens hf
  rw [Naming.name h tokens hf]
  simp [Node.identifier?, Node.named]

theorem cons (n : Node) (hn : n.identifier? = none) (h : Naming slots n.named)
    (k : Accounts ns more) : Accounts (n :: ns) (slots ++ more) :=
  (single hn h).append k

theorem around (hn : n.identifier? = none) (h : n.named = []) (k : Accounts ns slots) :
    Accounts (n :: ns) slots := by
  have hnames : Naming [] n.named := h ▸ Naming.none each_nil
  exact k.cons n hn hnames

theorem before (slot : Slot) (h : slot.wants ≠ .identifier) (k : Accounts ns slots) :
    Accounts ns (slot :: slots) := by
  have hslot : Accounts [] [slot] := silent (by simpa using h)
  exact hslot.append k

theorem behind (slot : Slot) (h : slot.wants ≠ .identifier) (k : Accounts ns slots) :
    Accounts ns (slots ++ [slot]) := by
  have hslot : Accounts [] [slot] := silent (by simpa using h)
  simpa using k.append hslot

end Accounts

theorem Level.hasOperator_ne_identifier {level : Level} {kind : Kind}
    (h : level.hasOperator kind = true) : kind ≠ .identifier := by
  rintro rfl
  cases level <;> cases h

theorem Constant.kind_ne_identifier (value : Constant) : value.kind ≠ .identifier := by
  cases value with
  | boolean value => cases value <;> decide
  | _ => exact nofun

mutual

theorem Expr.accounts : (e : Expr) → e.Canonical → Accounts e.nodes e.written
  | .literal value, _ => .around rfl rfl (.before _ value.kind_ne_identifier (.silent each_nil))
  | .identifier _, hc => .reading hc
  | .grouping inner, hc =>
    .around rfl rfl (.behind _ (by decide) (.before _ (by decide) (inner.accounts hc)))
  | .unary operator operand, hc => by
    have hoperator : operator.kind ≠ .identifier := by rcases hc.1 with h | h <;> simp [h]
    exact .around rfl rfl (.before _ hoperator (operand.accounts hc.2.2))
  | .binary left operator right, hc => by
    obtain ⟨⟨level, -, hjoins⟩, hleft, hright⟩ := hc
    have hoperator := Level.hasOperator_ne_identifier hjoins.1
    exact .around rfl rfl
      ((left.accounts hleft).append ((right.accounts hright).before (.token operator) hoperator))
  | .logical left operator right, hc => by
    obtain ⟨⟨level, -, hjoins⟩, hleft, hright⟩ := hc
    have hoperator := Level.hasOperator_ne_identifier hjoins.1
    exact .around rfl rfl
      ((left.accounts hleft).append ((right.accounts hright).before (.token operator) hoperator))
  | .assignment name value, hc =>
    .cons (.expr (.assignment name value)) rfl (.name hc.1)
      ((value.accounts hc.2).before (.kind .equal) (by decide))
  | .call callee paren arguments, hc => by
    obtain ⟨-, hcallee, hparen, -, hes⟩ := hc
    have hlist := (Expr.accounts_separated arguments hes).before (.kind .leftParen) (by decide)
    have hbehind : (Slot.token paren).wants ≠ .identifier := by simp [Slot.wants, hparen]
    exact .around rfl rfl (((callee.accounts hcallee).append hlist).behind _ hbehind)

theorem Expr.accounts_separated : (es : List Expr) → Expr.AllCanonical es →
    Accounts (Expr.nodesOfAll es) (Slot.separated (Expr.writtenEach es))
  | [], _ => .silent each_nil
  | [e], hc => by simpa [Expr.nodesOfAll, Expr.writtenEach] using e.accounts hc.1
  | e :: f :: es, hc => by
    simp only [Expr.nodesOfAll, Expr.writtenEach, separated_cons_cons]
    exact (e.accounts hc.1).append
      ((Expr.accounts_separated (f :: es) hc.2).before (.kind .comma) (by decide))

end

theorem Expr.accounts_after {before : List Slot} (hb : Each (·.wants ≠ .identifier) before)
    {o : Option Expr} (hc : Expr.CanonicalIfAny o) :
    Accounts (Expr.nodesOf? o) (Expr.writtenAfter before o) := by
  cases o with
  | none => exact .silent each_nil
  | some e => exact (Accounts.silent hb).append (e.accounts (hc e rfl))

mutual

theorem Stmt.accounts (inFunction : Bool) : (s : Stmt) → s.Canonical inFunction →
    Accounts s.nodes s.written
  | .expression value, hc => .around rfl rfl ((value.accounts hc).behind _ (by decide))
  | .print keyword value, hc => by
    have hkeyword : (Slot.token keyword).wants ≠ .identifier := by simp [Slot.wants, hc.1]
    exact .around rfl rfl (((value.accounts hc.2).before _ hkeyword).behind _ (by decide))
  | .block body, hc => by
    have hbody := (Stmt.accounts_all inFunction body hc).before (.kind .leftBrace) (by decide)
    exact .around rfl rfl (hbody.behind _ (by decide))
  | .conditional condition thenBranch elseBranch, hc => by
    obtain ⟨hcondition, -, hthen, -, helse⟩ := hc
    have hhead := (condition.accounts hcondition).before (.kind .leftParen) (by decide)
    have hbranch := (thenBranch.accounts inFunction hthen).before (.kind .rightParen) (by decide)
    rw [Stmt.nodes_conditional]
    exact .around rfl rfl (((hhead.before (.kind .ifWord) (by decide)).append hbranch).append
      (Stmt.accounts_else inFunction elseBranch helse))
  | .whileLoop keyword condition body, hc => by
    obtain ⟨hk, hcondition, -, hbody⟩ := hc
    have hkeyword : (Slot.token keyword).wants ≠ .identifier := by simp [Slot.wants, hk]
    have hhead := (condition.accounts hcondition).before (.kind .leftParen) (by decide)
    exact .around rfl rfl ((hhead.before _ hkeyword).append
      ((body.accounts inFunction hbody).before (.kind .rightParen) (by decide)))
  | .forLoop keyword initializer condition increment body, hc => by
    obtain ⟨hk, hfirst, hcondition, hincrement, -, hbody⟩ := hc
    have hkeyword : (Slot.token keyword).wants ≠ .identifier := by simp [Slot.wants, hk]
    have hhead := (Stmt.accounts_first inFunction initializer hfirst).before (.kind .leftParen)
      (by decide)
    have hclauses := ((hhead.before _ hkeyword).append
      (Expr.accounts_after each_nil hcondition)).append
      ((Expr.accounts_after each_nil hincrement).before (.kind .semicolon) (by decide))
    rw [Stmt.nodes_forLoop]
    exact .around rfl rfl (hclauses.append
      ((body.accounts inFunction hbody).before (.kind .rightParen) (by decide)))
  | .variableDecl name initializer constant, hc => by
    have hword : (Slot.kind (if constant then .constWord else .letWord)).wants ≠ .identifier := by
      cases constant <;> decide
    have hequal : Each (·.wants ≠ .identifier) [.kind .equal] := by simp [Slot.wants]
    exact .behind _ (by decide) (.cons (.stmt (.variableDecl name initializer constant)) rfl
      (.before hword (.name hc.1)) (Expr.accounts_after hequal hc.2.2))
  | .functionDecl name parameters body, hc => by
    obtain ⟨hname, hparameters, -, hbody⟩ := hc
    have hlist : Naming (.kind .leftParen :: _) parameters :=
      .before (by decide) (.parameters hparameters)
    have hinside := (Stmt.accounts_all true body hbody).before (.kind .leftBrace) (by decide)
    exact .behind _ (by decide) (.cons (.stmt (.functionDecl name parameters body)) rfl
      (.before (by decide) ((Naming.name hname).append hlist))
      (hinside.before (.kind .rightParen) (by decide)))
  | .returnStmt keyword value, hc => by
    have hkeyword : (Slot.token keyword).wants ≠ .identifier := by simp [Slot.wants, hc.2.1]
    exact .around rfl rfl (((Expr.accounts_after each_nil hc.2.2).before _ hkeyword).behind _
      (by decide))

theorem Stmt.accounts_else (inFunction : Bool) : (o : Option Stmt) →
    Stmt.BranchCanonical inFunction o → Accounts (Stmt.nodesOf? o) (Stmt.writtenElse o)
  | none, _ => .silent each_nil
  | some branch, hc => (branch.accounts inFunction hc.2).before _ (by decide)

theorem Stmt.accounts_first (inFunction : Bool) : (o : Option Stmt) →
    Stmt.FirstCanonical inFunction o → Accounts (Stmt.nodesOf? o) (Stmt.writtenFirst o)
  | none, _ => .before _ (by decide) (.silent each_nil)
  | some first, hc => first.accounts inFunction hc.2

theorem Stmt.accounts_all (inFunction : Bool) : (ss : List Stmt) →
    Stmt.AllCanonical inFunction ss → Accounts (Stmt.nodesOfAll ss) (Stmt.writtenAll ss)
  | [], _ => .silent each_nil
  | s :: ss, hc => (s.accounts inFunction hc.1).append (Stmt.accounts_all inFunction ss hc.2)

end

theorem Scan.positions_increasing (source : String) :
    ((Scan.ofText source).tokens.map (·.position)).Pairwise Position.Before := by
  rw [Scan.ofText, Scan.tokens_ofChars, List.map_append]
  exact (Lexeme.found_increasing .first source.toList).1

theorem Scan.nodup_tokens (source : String) : (Scan.ofText source).tokens.Nodup :=
  (List.pairwise_map.1 (Scan.positions_increasing source)).imp fun hbefore heq =>
    hbefore.ne (congrArg Token.position heq)

theorem Scan.identifiers_tokens (source : String) :
    identifiers ((Scan.ofText source).tokens.takeWhile (·.kind ≠ .endOfInput)) =
      identifiers (Scan.ofText source).tokens := by
  rw [Scan.ofText, Scan.takeWhile_tokens, Scan.tokens_ofChars, identifiers_append]
  exact (List.append_nil _).symm

theorem Grammar.accounts_program {source : String} {p : Program}
    (h : Grammar.program (Scan.ofText source).tokens = .ok p) :
    ((Stmt.nodesOfAll p).filterMap Node.identifier?).Sublist
        (identifiers (Scan.ofText source).tokens) ∧
      (identifiers (Scan.ofText source).tokens).Perm
        ((Stmt.nodesOfAll p).filterMap Node.identifier? ++
          (Stmt.nodesOfAll p).flatMap Node.named) := by
  obtain ⟨hc, -, hf⟩ := Grammar.program_eq_ok_iff.1 h
  rw [← Scan.identifiers_tokens]
  exact Stmt.accounts_all false p hc _ hf

theorem Program.names_iff (p : Program) (t : Token) :
    p.Names t ↔ t ∈ (Stmt.nodesOfAll p).flatMap Node.named := by
  obtain ⟨paths, htraces⟩ := Node.exists_traces_program p
  simp only [Program.Names, List.mem_flatMap, htraces.mem_iff]
  constructor
  · rintro ⟨path, n, hpath, ht⟩
    exact ⟨n, ⟨path, hpath⟩, ht⟩
  · rintro ⟨n, ⟨path, hpath⟩, ht⟩
    exact ⟨path, n, hpath, ht⟩

/-- A walk through a program meets the node of every path once, none before the nodes around it.
The names that it meets as expressions come in the order of the text, and they are the identifiers
that no declaration and no assignment gives a value to. -/
theorem walk_in_source_order {source : String} {p : Program}
    (read : Grammar.program (Scan.ofText source).tokens = .ok p) :
    (∃ paths : List Node.Path, paths.Nodup ∧
      Node.Traces p.at? (Stmt.nodesOfAll p) paths) ∧
    let names := (Stmt.nodesOfAll p).filterMap Node.identifier?
    (names.map (·.position)).Pairwise Position.Before ∧
    ∀ t, t ∈ names ↔ t ∈ (Scan.ofText source).tokens ∧ t.kind = .identifier ∧ ¬ p.Names t := by
  obtain ⟨paths, htraces⟩ := Node.exists_traces_program p
  obtain ⟨hreads, hall⟩ := Grammar.accounts_program read
  refine ⟨⟨paths, htraces.nodup, htraces⟩, ?_, ?_⟩
  · have hsub := (hreads.trans List.filter_sublist).map (·.position)
    exact (Scan.positions_increasing source).sublist hsub
  · intro t
    have hnodup : (identifiers (Scan.ofText source).tokens).Nodup :=
      (Scan.nodup_tokens source).filter _
    -- each token of the text is one name only, so none is both read and given a value
    have hdisjoint := List.disjoint_of_nodup_append (hall.nodup_iff.1 hnodup)
    have hmem := hall.mem_iff (a := t)
    simp only [identifiers, List.mem_filter, decide_eq_true_eq, List.mem_append] at hmem
    rw [p.names_iff, ← and_assoc, hmem]
    constructor
    · intro ht
      exact ⟨.inl ht, hdisjoint ht⟩
    · rintro ⟨ht | ht, hnot⟩
      · exact ht
      · exact absurd ht hnot

/-- The variable of the loop is declared, read, given a value and read again. -/
theorem walk_in_source_order_for_loop :
    let source := "for (let i = a; i < b; i = i + 1) f(i, c);"
    let name := fun lexeme column => (⟨.identifier, lexeme, none, ⟨1, column⟩⟩ : Token)
    let p : Program := [.forLoop ⟨.forWord, "for", none, ⟨1, 1⟩⟩
      (some (.variableDecl (name "i" 10) (some (.identifier (name "a" 14))) false))
      (some (.binary (.identifier (name "i" 17)) ⟨.less, "<", none, ⟨1, 19⟩⟩
        (.identifier (name "b" 21))))
      (some (.assignment (name "i" 24) (.binary (.identifier (name "i" 28))
        ⟨.plus, "+", none, ⟨1, 30⟩⟩ (.literal (.number 1)))))
      (.expression (.call (.identifier (name "f" 35)) ⟨.rightParen, ")", none, ⟨1, 41⟩⟩
        [.identifier (name "i" 37), .identifier (name "c" 40)]))]
    Grammar.program (Scan.ofText source).tokens = .ok p ∧
    (∃ paths : List Node.Path, paths.Nodup ∧
      Node.Traces p.at? (Stmt.nodesOfAll p) paths) ∧
    (Stmt.nodesOfAll p).filterMap Node.identifier? =
      [name "a" 14, name "i" 17, name "b" 21, name "i" 28, name "f" 35, name "i" 37,
        name "c" 40] ∧
    p.Names (name "i" 24) := by
  intro source name p
  have hcanonical : p.Canonical := by
    simp only [p, name, Program.Canonical, Stmt.AllCanonical, Stmt.Canonical, Stmt.FirstCanonical,
      Expr.CanonicalIfAny, Expr.Canonical, Expr.AllCanonical, Option.mem_some_iff, forall_eq',
      and_true, true_and]
    exact ⟨⟨trivial, fun _ => rfl⟩, ⟨.comparison, rfl, rfl, by decide, by decide⟩,
      ⟨.term, rfl, rfl, by decide, by decide⟩, id, by decide⟩
  have read : Grammar.program (Scan.ofText source).tokens = .ok p :=
    Grammar.program_eq_ok_iff.2 ⟨hcanonical, by decide, by decide +kernel⟩
  have hreads : (Stmt.nodesOfAll p).filterMap Node.identifier? =
      [name "a" 14, name "i" 17, name "b" 21, name "i" 28, name "f" 35, name "i" 37,
        name "c" 40] := rfl
  obtain ⟨hpaths, -, hnames⟩ := walk_in_source_order read
  refine ⟨read, hpaths, hreads, ?_⟩
  by_contra hnot
  have hread := (hnames (name "i" 24)).2 ⟨by decide +kernel, rfl, hnot⟩
  rw [hreads] at hread
  revert hread
  decide

end Scriptlet
