/-
# The formula checker (`app.units.engine`)

A formula is accepted by two flat passes over the nodes of its syntax tree.  The first refuses
every node that is not of a listed class, looks at each call and at each exponent, and remembers
the name nodes that are called; the second looks at the other names.  Nodes are told apart by
identity: here by their position in the tree, since a parsed tree shares no node but contexts and
operators.

`checkAst_iff`: the passes accept exactly the trees of a grammar (`Formula`), whatever their depth.

A flat pass is easy to get wrong: it has no context, so what may stand where must be said by the
nodes themselves or be remembered.  The grammar has the context, and the equivalence says that
nothing is lost.  Its difficult case is the call.  The callee is a name node like any other, and
the first pass excuses it from the second; that it excuses no other node is `passes_call`.

The walk goes breadth first, as `ast.walk` does.  The order does not matter to what is accepted,
only to which error is reported, so the walk itself is in `Walks` and used here as "every node
below".
-/
import WitsmlViewer.Domain
import WitsmlViewer.Lib.Walks
import WitsmlViewer.Py.Timestamp

namespace WitsmlViewer

open Py Walks

namespace Units

/-! ## 1. Syntax trees

The classes that the checker can tell apart.  All others are `other`, with a class for the error
message, since a node that is not listed is refused whatever it is. -/

inductive Operator
  | add | sub | mult | matMult | div | mod | pow | lShift | rShift | bitOr | bitXor | bitAnd
  | floorDiv
deriving DecidableEq

inductive UnaryOperator
  | invert | not | uAdd | uSub
deriving DecidableEq

inductive ExprContext
  | load | store | del
deriving DecidableEq

/-- A literal; the parser makes no `nan`. -/
inductive Constant
  | none
  | bool (b : Bool)
  | int (n : ℤ)
  | float (x : Float64) (notNan : x ≠ .nan)
  | complex (re im : Float64)
  | str (s : Str)
  | bytes (bs : List UInt8)
  | ellipsis

/-- The other classes that a tree of an expression may have nodes of. -/
inductive NodeClass
  | boolOp | namedExpr | lambda | ifExp | dict | set | listComp | setComp | dictComp | generatorExp
  | await | yield | yieldFrom | compare | formattedValue | interpolation | joinedStr | templateStr
  | attribute | subscript | starred | list | tuple | slice
  | comprehension | arguments | arg | keyword
  | and | or | eq | notEq | lt | ltE | gt | gtE | is | isNot | in | notIn
deriving DecidableEq

/-- An expression, or one of the parts that `other` stands for. -/
inductive Expr
  | binOp (left : Expr) (op : Operator) (right : Expr)
  | unaryOp (op : UnaryOperator) (operand : Expr)
  | constant (value : Constant)
  | name (id : Str) (ctx : ExprContext)
  | call (func : Expr) (args keywords : List Expr)
  | other (cls : NodeClass) (parts : List Expr) (ctx : Option ExprContext)

/-- A node of the tree that `ast.parse` makes of an expression. -/
inductive Node
  | expression (body : Expr)
  | expr (e : Expr)
  | operator (op : Operator)
  | unaryOperator (op : UnaryOperator)
  | context (ctx : ExprContext)

/-- `ast.iter_child_nodes`. -/
def Node.children : Node → List Node
  | .expression body => [.expr body]
  | .expr (.binOp left op right) => [.expr left, .operator op, .expr right]
  | .expr (.unaryOp op operand) => [.unaryOperator op, .expr operand]
  | .expr (.constant _) => []
  | .expr (.name _ ctx) => [.context ctx]
  | .expr (.call func args keywords) => .expr func :: (args.map .expr ++ keywords.map .expr)
  | .expr (.other _ parts ctx) => parts.map .expr ++ ctx.toList.map .context
  | .operator _ | .unaryOperator _ | .context _ => []

mutual

/-- The number of nodes. -/
def Expr.size : Expr → ℕ
  | .binOp left _ right => 2 + left.size + right.size
  | .unaryOp _ operand => 2 + operand.size
  | .constant _ => 1
  | .name _ _ => 2
  | .call func args keywords => 1 + func.size + Expr.sizes args + Expr.sizes keywords
  | .other _ parts ctx => 1 + Expr.sizes parts + ctx.toList.length

def Expr.sizes : List Expr → ℕ
  | [] => 0
  | e :: es => e.size + Expr.sizes es

end

def Node.size : Node → ℕ
  | .expression body => 1 + body.size
  | .expr e => e.size
  | .operator _ | .unaryOperator _ | .context _ => 1

theorem Expr.sizes_eq (es : List Expr) : Expr.sizes es = ((es.map Node.expr).map Node.size).sum := by
  induction es with
  | nil => rfl
  | cons e es ih =>
    rw [Expr.sizes, ih]
    rfl

theorem Node.size_eq (n : Node) : n.size = 1 + (n.children.map Node.size).sum := by
  have hctx : ∀ ctx : Option ExprContext,
      ((ctx.toList.map Node.context).map Node.size).sum = ctx.toList.length := by
    intro ctx
    cases ctx <;> rfl
  cases n with
  | expression body => simp [Node.size, Node.children]
  | operator op => rfl
  | unaryOperator op => rfl
  | context ctx => rfl
  | expr e =>
    cases e with
    | binOp left op right =>
      simp only [Node.size, Node.children, Expr.size, List.map_cons, List.map_nil, List.sum_cons,
        List.sum_nil]
      omega
    | unaryOp op operand =>
      simp only [Node.size, Node.children, Expr.size, List.map_cons, List.map_nil, List.sum_cons,
        List.sum_nil]
      omega
    | constant value => rfl
    | name id ctx => rfl
    | call func args keywords =>
      simp only [Node.children, List.map_cons, List.map_append, List.sum_cons, List.sum_append,
        ← Expr.sizes_eq]
      simp only [Node.size, Expr.size]
      omega
    | other cls parts ctx =>
      simp only [Node.children, List.map_append, List.sum_append, ← Expr.sizes_eq, hctx]
      simp only [Node.size, Expr.size]
      omega

/-- `ast.walk`, each node with its position. -/
def Node.walk (n : Node) : List (List ℕ × Node) := Walks.walk Node.children Node.size n

/-- The walk visits every node once, with its position. -/
theorem Node.mem_walk {n x : Node} {p : List ℕ} :
    (p, x) ∈ n.walk ↔ nodeAt Node.children n p = some x :=
  Walks.mem_walk Node.size_eq

/-! ## 2. The checker

The checker as the source has it, with its messages.  A call must have a bare name of the table for
its callee and no keywords; an exponent must be a small literal, possibly under a sign, at every
power and at any depth. -/

/-- The message of a `UnitFormulaError`. -/
abbrev Message := Str

/-- The name that the value goes by. -/
def VALUE_NAME : Str := "__value__".toList

def MAX_EXPONENT : ℕ := 64

/-- The names of the callables in the function table. -/
def ALLOWED_FUNCTIONS : List Str :=
  ["sin", "cos", "tan", "sqrt", "abs", "log", "exp"].map String.toList

/-- The names that are not called. -/
def ALLOWED_NAMES : List Str := [VALUE_NAME, "pi".toList, "e".toList]

/-- `type(node).__name__` of the nodes that can be refused. -/
def Operator.className : Operator → String
  | .add => "Add" | .sub => "Sub" | .mult => "Mult" | .matMult => "MatMult" | .div => "Div"
  | .mod => "Mod" | .pow => "Pow" | .lShift => "LShift" | .rShift => "RShift"
  | .bitOr => "BitOr" | .bitXor => "BitXor" | .bitAnd => "BitAnd" | .floorDiv => "FloorDiv"

def UnaryOperator.className : UnaryOperator → String
  | .invert => "Invert" | .not => "Not" | .uAdd => "UAdd" | .uSub => "USub"

def ExprContext.className : ExprContext → String
  | .load => "Load" | .store => "Store" | .del => "Del"

/-- The name that the error message gives for a node of another class. -/
def NodeClass.className : NodeClass → String
  | .boolOp => "BoolOp" | .namedExpr => "NamedExpr" | .lambda => "Lambda" | .ifExp => "IfExp"
  | .dict => "Dict" | .set => "Set" | .listComp => "ListComp" | .setComp => "SetComp"
  | .dictComp => "DictComp" | .generatorExp => "GeneratorExp" | .await => "Await"
  | .yield => "Yield" | .yieldFrom => "YieldFrom" | .compare => "Compare"
  | .formattedValue => "FormattedValue" | .interpolation => "Interpolation"
  | .joinedStr => "JoinedStr" | .templateStr => "TemplateStr" | .attribute => "Attribute"
  | .subscript => "Subscript" | .starred => "Starred" | .list => "List" | .tuple => "Tuple"
  | .slice => "Slice" | .comprehension => "comprehension" | .arguments => "arguments"
  | .arg => "arg" | .keyword => "keyword" | .and => "And" | .or => "Or" | .eq => "Eq"
  | .notEq => "NotEq" | .lt => "Lt" | .ltE => "LtE" | .gt => "Gt" | .gtE => "GtE" | .is => "Is"
  | .isNot => "IsNot" | .in => "In" | .notIn => "NotIn"

/-- `_ALLOWED_NODES`: the name of the class of a node that is not of a listed one. -/
def Node.disallowed : Node → Option String
  | .expression _ => none
  | .expr (.other cls _ _) => some cls.className
  | .expr _ => none
  | .operator op =>
    if op ∈ [.add, .sub, .mult, .div, .pow, .mod] then none else some op.className
  | .unaryOperator op => if op ∈ [.uSub, .uAdd] then none else some op.className
  | .context ctx => if ctx = .load then none else some ctx.className

/-- `repr` of an identifier. -/
def quoted (id : Str) : Str := "'".toList ++ id ++ "'".toList

/-- `abs(value) > MAX_EXPONENT` of a constant that is an instance of `int` or `float`; `bool` is a
subclass of `int`. -/
def Constant.exceeds? : Constant → Option Bool
  | .bool b => some (decide (MAX_EXPONENT < b.toNat))
  | .int n => some (decide (MAX_EXPONENT < n.natAbs))
  | .float x _ => some ((Float64.ofRatio MAX_EXPONENT 1).lt x.abs)
  | _ => Option.none

/-- `_check_exponent`. -/
def checkExponent (expNode : Expr) : Except Message Unit :=
  let literal := match expNode with
    | .unaryOp .uSub operand => operand
    | .unaryOp .uAdd operand => operand
    | e => e
  match literal with
  | .constant value =>
    match value.exceeds? with
    | some true => .error "exponent magnitude exceeds 64".toList
    | some false => .ok ()
    | none => .error "exponent must be a numeric literal".toList
  | _ => .error "exponent must be a numeric literal".toList

/-- The first pass at one node.  A call adds its callee, which is its first child. -/
def checkNode (calleeNodes : List (List ℕ)) (e : List ℕ × Node) : Except Message (List (List ℕ)) :=
  match e.2.disallowed with
  | some cls => .error ("disallowed syntax: ".toList ++ cls.toList)
  | none =>
    match e.2 with
    | .expr (.call (.name id _) _ keywords) =>
      if id ∉ ALLOWED_FUNCTIONS then .error ("unknown function: ".toList ++ quoted id)
      else if !keywords.isEmpty then .error "keyword arguments are not allowed".toList
      else .ok ((e.1 ++ [0]) :: calleeNodes)
    | .expr (.call _ _ _) => .error "only direct function calls are allowed".toList
    | .expr (.binOp _ .pow right) => (checkExponent right).map fun _ => calleeNodes
    | _ => .ok calleeNodes

/-- Named, so that membership in a list of positions is decided by one and the same instance. -/
instance instLawfulBEqPosition : LawfulBEq (List ℕ) := inferInstance

/-- The second pass at one node. -/
def checkName (calleeNodes : List (List ℕ)) (e : List ℕ × Node) : Except Message Unit :=
  match e.2 with
  | .expr (.name id _) =>
    if e.1 ∉ calleeNodes ∧ id ∉ ALLOWED_NAMES then .error ("unknown name: ".toList ++ quoted id)
    else .ok ()
  | _ => .ok ()

/-- `_check_ast` of the tree of an expression. -/
def checkAst (tree : Expr) : Except Message Unit := do
  let nodes := (Node.expression tree).walk
  let calleeNodes ← nodes.foldlM checkNode []
  nodes.forM (checkName calleeNodes)

/-! ## 3. The grammar

The same language as a grammar.  It is a grammar over trees and not over texts: how a text is
parsed is Python's affair, and `ast.parse` is a parameter of what follows. -/

/-- An `int` or `float` literal of absolute value at most 64. -/
def Constant.IntOrFloat : Constant → Prop
  | .int n => |n| ≤ 64
  | .float x _ => |x.rank| ≤ 64 * unitsPerOne
  | _ => False

def Constant.IsBool : Constant → Prop
  | .bool _ => True
  | _ => False

/-- What stands after `**`: a literal, possibly under one sign. -/
inductive Exponent (literal : Constant → Prop) : Expr → Prop
  | plain {c : Constant} (h : literal c) : Exponent literal (.constant c)
  | signed {op : UnaryOperator} {c : Constant} (hop : op = .uAdd ∨ op = .uSub) (h : literal c) :
      Exponent literal (.unaryOp op (.constant c))

/-- The formulas, whose exponents are made of some literals. -/
inductive Formula (literal : Constant → Prop) : Expr → Prop
  | constant (c : Constant) : Formula literal (.constant c)
  | name {id : Str} (h : id ∈ ALLOWED_NAMES) : Formula literal (.name id .load)
  | unary {op : UnaryOperator} {e : Expr} (hop : op = .uAdd ∨ op = .uSub) (h : Formula literal e) :
      Formula literal (.unaryOp op e)
  | binary {l r : Expr} {op : Operator} (hop : op ∈ [.add, .sub, .mult, .div, .mod])
      (hl : Formula literal l) (hr : Formula literal r) : Formula literal (.binOp l op r)
  | power {base exponent : Expr} (hb : Formula literal base) (he : Exponent literal exponent) :
      Formula literal (.binOp base .pow exponent)
  | call {id : Str} {args : List Expr} (hid : id ∈ ALLOWED_FUNCTIONS)
      (hargs : ∀ a ∈ args, Formula literal a) : Formula literal (.call (.name id .load) args [])

/-- An exponent is a formula. -/
theorem Exponent.formula {literal : Constant → Prop} {e : Expr} (h : Exponent literal e) :
    Formula literal e := by
  cases h with
  | plain h => exact .constant _
  | signed hop h => exact .unary hop (.constant _)

/-- The literals that the checker takes for an exponent. -/
def Constant.ExponentLiteral (c : Constant) : Prop := c.IntOrFloat ∨ c.IsBool

theorem rank_sixtyFour : (Float64.ofRatio MAX_EXPONENT 1).rank = 64 * unitsPerOne := by
  decide +kernel

/-- A literal does not exceed the bound exactly if it is one of these. -/
theorem Constant.exceeds?_eq (c : Constant) : c.exceeds? = some false ↔ c.ExponentLiteral := by
  unfold ExponentLiteral
  cases c with
  | int n =>
    simp only [exceeds?, IntOrFloat, IsBool, or_false, Option.some.injEq, decide_eq_false_iff_not]
    have habs : |n| = n.natAbs := Int.abs_eq_natAbs n
    have hmax : MAX_EXPONENT = 64 := rfl
    omega
  | float x notNan =>
    simp only [exceeds?, IntOrFloat, IsBool, or_false, Option.some.injEq, Float64.lt]
    have hmax : ((Float64.ofRatio MAX_EXPONENT 1) != .nan) = true :=
      bne_iff_ne.mpr (Float64.ofUnits_ne_nan _ _)
    have hx : (x.abs != .nan) = true := bne_iff_ne.mpr (Float64.abs_ne_nan notNan)
    rw [hmax, hx, Bool.true_and, Bool.true_and, decide_eq_false_iff_not, rank_sixtyFour,
      Float64.rank_abs, not_lt]
  | bool b => cases b <;> simp [exceeds?, IntOrFloat, IsBool, MAX_EXPONENT]
  | none => simp [exceeds?, IntOrFloat, IsBool]
  | complex re im => simp [exceeds?, IntOrFloat, IsBool]
  | str s => simp [exceeds?, IntOrFloat, IsBool]
  | bytes bs => simp [exceeds?, IntOrFloat, IsBool]
  | ellipsis => simp [exceeds?, IntOrFloat, IsBool]

/-- **The exponent rule.** -/
theorem checkExponent_eq_ok {e : Expr} :
    checkExponent e = .ok () ↔ Exponent Constant.ExponentLiteral e := by
  have hliteral : ∀ c : Constant,
      (match c.exceeds? with
        | some true => .error "exponent magnitude exceeds 64".toList
        | some false => .ok ()
        | none => .error "exponent must be a numeric literal".toList : Except Message Unit) =
          .ok () ↔ c.ExponentLiteral := by
    intro c
    rw [← c.exceeds?_eq]
    split <;> simp_all
  constructor
  · intro h
    unfold checkExponent at h
    dsimp only at h
    split at h
    · rename_i value hvalue
      have hvalue' := (hliteral value).mp h
      split at hvalue
      · subst hvalue
        exact .signed (Or.inr rfl) hvalue'
      · subst hvalue
        exact .signed (Or.inl rfl) hvalue'
      · subst hvalue
        exact .plain hvalue'
    · simp at h
  · rintro (h | ⟨rfl | rfl, h⟩) <;> exact (hliteral _).mpr h

/-! ## 4. What the passes establish

First the passes are read as a property of each node (`Listed`, `Named`), by induction on the list
of nodes; then the property of the nodes is read as one of the tree. -/

def Node.isCall : Node → Bool
  | .expr (.call _ _ _) => true
  | _ => false

/-- The first pass lets the node through. -/
def Node.Listed (x : Node) : Prop :=
  x.disallowed = none ∧
    match x with
    | .expr (.call func _ keywords) =>
      (∃ id ctx, func = .name id ctx ∧ id ∈ ALLOWED_FUNCTIONS) ∧ keywords = []
    | .expr (.binOp _ .pow right) => Exponent Constant.ExponentLiteral right
    | _ => True

/-- The node at the position is what a call calls. -/
def Called (root : Node) (p : List ℕ) : Prop :=
  ∃ q c, p = q ++ [0] ∧ nodeAt Node.children root q = some c ∧ c.isCall = true

/-- The node is no name, or it is called, or it is a name that may be looked up. -/
def Named (root : Node) (p : List ℕ) (x : Node) : Prop :=
  ∀ id ctx, x = .expr (.name id ctx) → Called root p ∨ id ∈ ALLOWED_NAMES

/-- Every node below passes. -/
def Passes (root : Node) : Prop :=
  ∀ p x, nodeAt Node.children root p = some x → x.Listed ∧ Named root p x

/-- The first pass lets a listed node through, and notes the callee of a call. -/
theorem checkNode_eq_ok {callees callees' : List (List ℕ)} {e : List ℕ × Node} :
    checkNode callees e = .ok callees' ↔
      e.2.Listed ∧ callees' = if e.2.isCall then (e.1 ++ [0]) :: callees else callees := by
  obtain ⟨p, x⟩ := e
  unfold checkNode Node.Listed
  dsimp only
  cases hx : x.disallowed with
  | some cls => simp
  | none =>
    cases x with
    | expression body => simp [Node.isCall, eq_comm]
    | operator op => simp [Node.isCall, eq_comm]
    | unaryOperator op => simp [Node.isCall, eq_comm]
    | context ctx => simp [Node.isCall, eq_comm]
    | expr e =>
      cases e with
      | unaryOp op operand => simp [Node.isCall, eq_comm]
      | constant value => simp [Node.isCall, eq_comm]
      | name id ctx => simp [Node.isCall, eq_comm]
      | other cls parts ctx => simp [Node.isCall, eq_comm]
      | binOp left op right =>
        cases op with
        | pow =>
          dsimp only
          rw [← checkExponent_eq_ok]
          cases hright : checkExponent right with
          | error m => simp [Except.map]
          | ok u => simp [Except.map, Node.isCall, eq_comm]
        | _ => simp [Node.isCall, eq_comm]
      | call func args keywords =>
        cases func with
        | name id ctx =>
          by_cases hid : id ∈ ALLOWED_FUNCTIONS
          · cases keywords <;> simp [hid, Node.isCall, eq_comm]
          · simp [hid]
        | _ => simp

/-- What is called in a list of nodes. -/
def calleesOf (nodes : List (List ℕ × Node)) : List (List ℕ) :=
  (nodes.filter fun e => e.2.isCall).map fun e => e.1 ++ [0]

/-- It lets some nodes through if it lets each of them through, and has their callees in the end. -/
theorem foldlM_checkNode {nodes : List (List ℕ × Node)} {callees out : List (List ℕ)} :
    nodes.foldlM checkNode callees = .ok out ↔
      (∀ e ∈ nodes, e.2.Listed) ∧ out = (calleesOf nodes).reverse ++ callees := by
  induction nodes generalizing callees with
  | nil => simp [calleesOf, pure, Except.pure, eq_comm]
  | cons e nodes ih =>
    rw [List.foldlM_cons, bind_eq_ok]
    simp only [checkNode_eq_ok, ih, List.forall_mem_cons]
    constructor
    · rintro ⟨_, ⟨he, rfl⟩, hnodes, rfl⟩
      refine ⟨⟨he, hnodes⟩, ?_⟩
      cases hcall : e.2.isCall <;> simp [calleesOf, hcall]
    · rintro ⟨⟨he, hnodes⟩, rfl⟩
      refine ⟨_, ⟨he, rfl⟩, hnodes, ?_⟩
      cases hcall : e.2.isCall <;> simp [calleesOf, hcall]

theorem forM_eq_ok {ε α : Type} {f : α → Except ε Unit} {l : List α} :
    l.forM f = .ok () ↔ ∀ a ∈ l, f a = .ok () := by
  induction l with
  | nil => simp [pure, Except.pure]
  | cons a l ih =>
    have hcons : (a :: l).forM f = f a >>= fun _ => l.forM f := rfl
    rw [hcons, bind_eq_ok, List.forall_mem_cons, ← ih]
    exact ⟨fun ⟨_, ha, hl⟩ => ⟨ha, hl⟩, fun ⟨ha, hl⟩ => ⟨(), ha, hl⟩⟩

/-- The second pass lets a node through that is no name, or is noted as a callee, or is a name that
may be looked up. -/
theorem checkName_eq_ok {callees : List (List ℕ)} {p : List ℕ} {x : Node} :
    checkName callees (p, x) = .ok () ↔
      ∀ id ctx, x = .expr (.name id ctx) → p ∈ callees ∨ id ∈ ALLOWED_NAMES := by
  unfold checkName
  dsimp only
  split
  · rename_i id ctx
    constructor
    · intro h id' ctx' heq
      obtain ⟨rfl, rfl⟩ := Expr.name.inj (Node.expr.inj heq)
      by_contra hno
      rw [if_pos (not_or.mp hno)] at h
      exact absurd h (by simp)
    · intro h
      exact if_neg fun hno => (h id ctx rfl).elim hno.1 hno.2
  · rename_i hother
    exact iff_of_true rfl fun id ctx heq => absurd heq (hother id ctx)

/-- **The two passes succeed exactly if every node passes.** -/
theorem checkAst_eq_ok {tree : Expr} : checkAst tree = .ok () ↔ Passes (.expression tree) := by
  have hcalled : ∀ p, p ∈ (calleesOf (Node.expression tree).walk).reverse ++ [] ↔
      Called (.expression tree) p := by
    intro p
    simp only [calleesOf, List.append_nil, List.mem_reverse, List.mem_map, List.mem_filter,
      Prod.exists, Node.mem_walk]
    constructor
    · rintro ⟨q, c, ⟨hq, hc⟩, rfl⟩
      exact ⟨q, c, rfl, hq, hc⟩
    · rintro ⟨q, c, rfl, hq, hc⟩
      exact ⟨q, c, ⟨hq, hc⟩, rfl⟩
  unfold checkAst Passes Named
  rw [bind_eq_ok]
  simp only [foldlM_checkNode, forM_eq_ok, Prod.forall, Node.mem_walk, checkName_eq_ok]
  constructor
  · rintro ⟨_, ⟨hlisted, rfl⟩, hnames⟩ p x hx
    refine ⟨hlisted p x hx, fun id ctx heq => ?_⟩
    rw [← hcalled]
    exact hnames p x hx id ctx heq
  · intro h
    refine ⟨_, ⟨fun p x hx => (h p x hx).1, rfl⟩, fun p x hx id ctx heq => ?_⟩
    rw [hcalled]
    exact (h p x hx).2 id ctx heq

/-! ## 5. Below a node

What a tree's nodes are, in terms of its children's.  For most nodes it is the same question below;
the exception is the first child of a call, which is called. -/

section Below

variable {root m : Node} {i : ℕ}

theorem not_called_nil : ¬Called root [] := by
  rintro ⟨q, c, hq, -⟩
  simp at hq

/-- Only the first child of a call is called; further down the child's own calls decide. -/
theorem called_cons (hm : root.children[i]? = some m) {p : List ℕ}
    (hp : ¬(p = [] ∧ i = 0 ∧ root.isCall = true)) : Called root (i :: p) ↔ Called m p := by
  constructor
  · rintro ⟨q, c, hpq, hq, hc⟩
    cases q with
    | nil =>
      obtain ⟨rfl, rfl⟩ := List.cons.inj hpq
      rw [nodeAt_nil, Option.some.injEq] at hq
      exact absurd ⟨rfl, rfl, hq ▸ hc⟩ hp
    | cons j q =>
      obtain ⟨rfl, rfl⟩ := List.cons.inj hpq
      rw [nodeAt_cons hm] at hq
      exact ⟨q, c, rfl, hq, hc⟩
  · rintro ⟨q, c, rfl, hq, hc⟩
    exact ⟨i :: q, c, rfl, (nodeAt_cons hm q).trans hq, hc⟩

/-- Below a child that is not called the nodes pass as they do on their own. -/
theorem below_iff_passes (hm : root.children[i]? = some m) (hcall : ¬(i = 0 ∧ root.isCall = true)) :
    (∀ p x, nodeAt Node.children m p = some x → x.Listed ∧ Named root (i :: p) x) ↔ Passes m := by
  have hcalled : ∀ p, Called root (i :: p) ↔ Called m p := fun p =>
    called_cons hm fun h => hcall h.2
  unfold Passes Named
  simp only [hcalled]

/-- **A node that calls nothing passes with its children.** -/
theorem passes_iff (hcall : root.isCall = false) : Passes root ↔
    (root.Listed ∧ ∀ id ctx, root = .expr (.name id ctx) → id ∈ ALLOWED_NAMES) ∧
      ∀ m ∈ root.children, Passes m := by
  have hroot : Named root [] root ↔
      ∀ id ctx, root = .expr (.name id ctx) → id ∈ ALLOWED_NAMES := by
    unfold Named
    simp only [not_called_nil, false_or]
  have hbelow : (∀ i m, root.children[i]? = some m →
      ∀ p x, nodeAt Node.children m p = some x → x.Listed ∧ Named root (i :: p) x) ↔
        ∀ m ∈ root.children, Passes m := by
    constructor
    · intro h m hm
      obtain ⟨i, hi⟩ := List.mem_iff_getElem?.mp hm
      exact (below_iff_passes hi (by simp [hcall])).mp (h i m hi)
    · intro h i m hi
      exact (below_iff_passes hi (by simp [hcall])).mpr (h m (List.mem_of_getElem? hi))
  rw [Passes, forall_nodeAt_iff, hroot, hbelow]

theorem passes_operator {op : Operator} :
    Passes (.operator op) ↔ op ∈ [.add, .sub, .mult, .div, .pow, .mod] := by
  rw [passes_iff rfl]
  cases op <;> simp [Node.Listed, Node.disallowed, Node.children]

theorem passes_unaryOperator {op : UnaryOperator} :
    Passes (.unaryOperator op) ↔ op = .uAdd ∨ op = .uSub := by
  rw [passes_iff rfl]
  cases op <;> simp [Node.Listed, Node.disallowed, Node.children]

theorem passes_context {ctx : ExprContext} : Passes (.context ctx) ↔ ctx = .load := by
  rw [passes_iff rfl]
  simp [Node.Listed, Node.disallowed, Node.children]

/-- The nodes of a callee pass, seen from the call. -/
def CalleePasses (func : Expr) (args keywords : List Expr) : Prop :=
  ∀ p x, nodeAt Node.children (.expr func) p = some x →
    x.Listed ∧ Named (.expr (.call func args keywords)) (0 :: p) x

/-- A call passes with its callee, its arguments and its keywords. -/
theorem passes_call_parts {func : Expr} {args keywords : List Expr} :
    Passes (.expr (.call func args keywords)) ↔
      (Node.expr (.call func args keywords)).Listed ∧ CalleePasses func args keywords ∧
        ∀ a ∈ args ++ keywords, Passes (.expr a) := by
  have hnamed : Named (.expr (.call func args keywords)) [] (.expr (.call func args keywords)) :=
    fun id ctx heq => absurd heq (by simp)
  have hbelow : (∀ i m, (Node.expr (.call func args keywords)).children[i]? = some m →
      ∀ p x, nodeAt Node.children m p = some x →
        x.Listed ∧ Named (.expr (.call func args keywords)) (i :: p) x) ↔
      CalleePasses func args keywords ∧ ∀ a ∈ args ++ keywords, Passes (.expr a) := by
    constructor
    · intro h
      refine ⟨h 0 _ rfl, fun a ha => ?_⟩
      obtain ⟨i, hi⟩ := List.mem_iff_getElem?.mp ha
      have hchild : (Node.expr (.call func args keywords)).children[i + 1]? =
          some (.expr a) := by
        rw [Node.children, List.getElem?_cons_succ, ← List.map_append, List.getElem?_map, hi]
        rfl
      exact (below_iff_passes hchild (by simp)).mp (h _ _ hchild)
    · rintro ⟨hfunc, hrest⟩ i m hm
      cases i with
      | zero =>
        obtain rfl := Option.some.inj hm
        exact hfunc
      | succ i =>
        refine (below_iff_passes hm (by simp)).mpr ?_
        rw [Node.children, List.getElem?_cons_succ, ← List.map_append, List.getElem?_map,
          Option.map_eq_some_iff] at hm
        obtain ⟨a, ha, rfl⟩ := hm
        exact hrest a (List.mem_of_getElem? ha)
  rw [Passes, forall_nodeAt_iff, hbelow]
  tauto

/-- Below a name there is only its context. -/
theorem children_name {id : Str} {ctx : ExprContext} {i : ℕ} {m : Node}
    (hm : (Node.expr (.name id ctx)).children[i]? = some m) : m = .context ctx := by
  cases i with
  | zero => exact (Option.some.inj hm).symm
  | succ i => simp [Node.children] at hm

/-- A context has no name in it. -/
theorem context_ne_name {ctx : ExprContext} {p : List ℕ} {x : Node}
    (hx : nodeAt Node.children (.context ctx) p = some x) (id : Str) (ctx' : ExprContext) :
    x ≠ .expr (.name id ctx') := by
  intro heq
  cases p with
  | nil => exact absurd ((Option.some.inj hx).trans heq) (by simp)
  | cons i p => simp [nodeAt, Node.children] at hx

/-- A name at a called position passes if it is loaded, whatever it is. -/
theorem calleePasses_name {id : Str} {ctx : ExprContext} {args keywords : List Expr} :
    CalleePasses (.name id ctx) args keywords ↔ ctx = .load := by
  rw [CalleePasses, forall_nodeAt_iff, ← passes_context]
  have hlisted : (Node.expr (.name id ctx)).Listed := ⟨rfl, trivial⟩
  have hnamed : Named (.expr (.call (.name id ctx) args keywords)) [0]
      (.expr (.name id ctx)) := fun _ _ _ => Or.inl ⟨[], _, rfl, rfl, rfl⟩
  constructor
  · rintro ⟨-, h⟩ p x hx
    exact ⟨(h 0 _ rfl p x hx).1, fun id' ctx' heq => absurd heq (context_ne_name hx id' ctx')⟩
  · intro h
    refine ⟨⟨hlisted, hnamed⟩, fun i m hm p x hx => ?_⟩
    obtain rfl := children_name hm
    exact ⟨(h p x hx).1, fun id' ctx' heq => absurd heq (context_ne_name hx id' ctx')⟩

/-- **A call passes with its arguments**: its callee is a bare name of the table. -/
theorem passes_call {func : Expr} {args keywords : List Expr} :
    Passes (.expr (.call func args keywords)) ↔
      (∃ id, func = .name id .load ∧ id ∈ ALLOWED_FUNCTIONS) ∧ keywords = [] ∧
        ∀ a ∈ args, Passes (.expr a) := by
  rw [passes_call_parts]
  constructor
  · rintro ⟨⟨-, ⟨id, ctx, rfl, hid⟩, rfl⟩, hcallee, hargs⟩
    obtain rfl := calleePasses_name.mp hcallee
    exact ⟨⟨id, rfl, hid⟩, rfl, fun a ha => hargs a (List.mem_append_left _ ha)⟩
  · rintro ⟨⟨id, rfl, hid⟩, rfl, hargs⟩
    refine ⟨⟨rfl, ⟨id, _, rfl, hid⟩, rfl⟩, calleePasses_name.mpr rfl, fun a ha => ?_⟩
    rw [List.append_nil] at ha
    exact hargs a ha

end Below

/-! ## 6. The checker accepts the grammar

The induction is on the expression, with one case for each class of node; each is an instance of a
lemma of the last section. -/

/-- **An expression passes exactly if it is a formula.**  A power is the case in which a condition
on a node looks below it: the exponent rule looks at the literal, and the literal is a child of a
child. -/
theorem passes_expr (e : Expr) : Passes (.expr e) ↔ Formula Constant.ExponentLiteral e := by
  match e with
  | .constant c =>
    rw [passes_iff rfl]
    refine iff_of_true ⟨⟨⟨rfl, trivial⟩, fun _ _ heq => absurd heq (by simp)⟩, ?_⟩ (.constant c)
    simp [Node.children]
  | .name id ctx =>
    have hchildren : (∀ m ∈ (Node.expr (.name id ctx)).children, Passes m) ↔ ctx = .load := by
      simp [Node.children, passes_context]
    rw [passes_iff rfl, hchildren]
    constructor
    · rintro ⟨⟨-, hid⟩, rfl⟩
      exact .name (hid id _ rfl)
    · rintro ⟨hid⟩
      refine ⟨⟨⟨rfl, trivial⟩, fun id' ctx' heq => ?_⟩, rfl⟩
      obtain ⟨rfl, -⟩ := Expr.name.inj (Node.expr.inj heq)
      assumption
  | .other cls parts ctx =>
    rw [passes_iff rfl]
    refine iff_of_false ?_ (fun h => nomatch h)
    rintro ⟨⟨⟨hdis, -⟩, -⟩, -⟩
    simp [Node.disallowed] at hdis
  | .unaryOp op operand =>
    have ih := passes_expr operand
    have hchildren : (∀ m ∈ (Node.expr (.unaryOp op operand)).children, Passes m) ↔
        (op = .uAdd ∨ op = .uSub) ∧ Formula Constant.ExponentLiteral operand := by
      simp only [Node.children, List.forall_mem_cons, passes_unaryOperator, ih]
      simp
    rw [passes_iff rfl, hchildren]
    constructor
    · rintro ⟨-, hop, h⟩
      exact .unary hop h
    · intro h
      cases h with
      | unary hop h => exact ⟨⟨⟨rfl, trivial⟩, fun _ _ heq => absurd heq (by simp)⟩, hop, h⟩
  | .binOp left op right =>
    have ihl := passes_expr left
    have ihr := passes_expr right
    have hchildren : (∀ m ∈ (Node.expr (.binOp left op right)).children, Passes m) ↔
        Formula Constant.ExponentLiteral left ∧ op ∈ [.add, .sub, .mult, .div, .pow, .mod] ∧
          Formula Constant.ExponentLiteral right := by
      simp only [Node.children, List.forall_mem_cons, passes_operator, ihl, ihr]
      simp
    have hname : ∀ id ctx, Node.expr (.binOp left op right) = .expr (.name id ctx) →
        id ∈ ALLOWED_NAMES := fun _ _ heq => absurd heq (by simp)
    rw [passes_iff rfl, hchildren]
    by_cases hop : op = .pow
    · subst hop
      constructor
      · rintro ⟨⟨⟨-, hexponent⟩, -⟩, hl, -, -⟩
        exact .power hl hexponent
      · intro h
        cases h with
        | binary hop => simp at hop
        | power hb he => exact ⟨⟨⟨rfl, he⟩, hname⟩, hb, by simp, he.formula⟩
    · have hlisted : (Node.expr (.binOp left op right)).Listed := by
        refine ⟨rfl, ?_⟩
        cases op <;> trivial
      constructor
      · rintro ⟨-, hl, hmem, hr⟩
        refine .binary ?_ hl hr
        simpa [hop] using hmem
      · intro h
        cases h with
        | power hb he => exact absurd rfl hop
        | binary hmem hl hr =>
          refine ⟨⟨hlisted, hname⟩, hl, ?_, hr⟩
          simp only [List.mem_cons] at hmem ⊢
          tauto
  | .call func args keywords =>
    have ih : ∀ a ∈ args, Passes (.expr a) ↔ Formula Constant.ExponentLiteral a :=
      fun a ha => passes_expr a
    rw [passes_call]
    constructor
    · rintro ⟨⟨id, rfl, hid⟩, rfl, hargs⟩
      exact .call hid fun a ha => (ih a ha).mp (hargs a ha)
    · intro h
      cases h with
      | call hid hargs => exact ⟨⟨_, rfl, hid⟩, rfl, fun a ha => (ih a ha).mpr (hargs a ha)⟩
termination_by e

/-- **The checker accepts exactly the grammar.**  In an accepted tree, at any depth, there is no
node of another class, a name that is called is in the function table, and any other name is the
placeholder or a constant.

The second half is what one wants of such a checker: what is spelled out in the conclusion holds of
every node, and so neither an attribute nor a subscript nor a lambda is left for the evaluator.
The comment above the checker allows one name only, and the tests expect `pi` and `e` as well; the
code does as the tests do.

That a truth value passes for an exponent is a consequence of `isinstance`, as `bool` is a subclass
of `int` there.  It does no harm: it is 0 or 1. -/
theorem checkAst_iff (tree : Expr) :
    (checkAst tree = .ok () ↔ Formula Constant.ExponentLiteral tree) ∧
      (checkAst tree = .ok () → ∀ p x, nodeAt Node.children (.expression tree) p = some x →
        (∀ cls parts ctx, x ≠ .expr (.other cls parts ctx)) ∧
          ∀ id ctx, x = .expr (.name id ctx) →
            (Called (.expression tree) p → id ∈ ALLOWED_FUNCTIONS) ∧
            (¬Called (.expression tree) p → id ∈ ALLOWED_NAMES)) := by
  have hbody : Passes (.expression tree) ↔ Passes (.expr tree) := by
    rw [passes_iff rfl]
    have hlisted : (Node.expression tree).Listed := ⟨rfl, trivial⟩
    simp [hlisted, Node.children]
  constructor
  · rw [checkAst_eq_ok, hbody, passes_expr]
  · intro hok p x hx
    have hpasses := checkAst_eq_ok.mp hok
    refine ⟨fun cls parts ctx heq => ?_, fun id ctx heq =>
      ⟨?_, ((hpasses p x hx).2 id ctx heq).resolve_left⟩⟩
    · have hdis := (hpasses p x hx).1.1
      rw [heq] at hdis
      simp [Node.disallowed] at hdis
    · rintro ⟨q, c, rfl, hq, hc⟩
      -- the call above has checked the name that stands here
      rw [nodeAt_append_singleton hq] at hx
      have hlisted := (hpasses q c hq).1
      unfold Node.isCall at hc
      split at hc
      · obtain ⟨-, ⟨id', ctx', rfl, hid⟩, -⟩ := hlisted
        obtain rfl := Option.some.inj hx
        obtain ⟨rfl, -⟩ := Expr.name.inj (Node.expr.inj heq)
        exact hid
      · simp at hc

/-- `__value__ ** True`. -/
def boolPower : Expr :=
  .binOp (.name VALUE_NAME .load) .pow (.constant (.bool true))

/-- **A truth value is taken for an exponent**, which is neither an `int` nor a `float` literal. -/
theorem boolPower_accepted :
    checkAst boolPower = .ok () ∧ ¬Formula Constant.IntOrFloat boolPower := by
  refine ⟨rfl, fun h => ?_⟩
  cases h with
  | binary hop => simp at hop
  | power hb he =>
    cases he with
    | plain h => exact h

end Units

end WitsmlViewer
