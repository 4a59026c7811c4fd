import ShaderEffect.Typing.Infer

/-!
# Which types expressions have

The typing rules of the shading language, written down apart from the inference that the lowering
passes use. `Operation` gives the type of an operation from those of its operands, with the implicit
conversion of integers to floats, and `HasType` the type of an expression. A name has the type of
its innermost declaration, and a call that of the overload whose parameters have exactly the types
of the arguments. What built-in functions return is left out.
-/

namespace ShaderEffect

/-! ## Operations -/

namespace Scalar

def isInteger : Scalar → Bool
  | .int | .uint => true
  | .float | .bool => false

/-- The component type of an operation on components of two types: an integer becomes a float next
to one, and integers of different signs do not meet. -/
inductive Joins : Scalar → Scalar → Scalar → Prop where
  | float : Joins .float .float .float
  | integer {s} (h : s.isInteger = true) : Joins s s s
  | left {s} (h : s.isInteger = true) : Joins .float s .float
  | right {s} (h : s.isInteger = true) : Joins s .float .float

end Scalar

namespace ShaderType

/-- A value of the first type is taken where one of the second is asked for. -/
inductive Converts : ShaderType → ShaderType → Prop where
  | refl (t) : Converts t t
  | scalar {s} (h : s.isInteger = true) : Converts (.scalar s) .float
  | vector {s n} (h : s.isInteger = true) : Converts (.vector s n) (.vec n)

/-- Sums, differences, products and quotients. A product with a matrix is the one of linear algebra;
everything else goes component by component. -/
inductive Arithmetic (op : BinOp) : ShaderType → ShaderType → ShaderType → Prop where
  | scalars {a b s} (h : Scalar.Joins a b s) : Arithmetic op (.scalar a) (.scalar b) (.scalar s)
  | vectors {a b s n} (h : Scalar.Joins a b s) :
    Arithmetic op (.vector a n) (.vector b n) (.vector s n)
  | vectorScalar {a b s n} (h : Scalar.Joins a b s) :
    Arithmetic op (.vector a n) (.scalar b) (.vector s n)
  | scalarVector {a b s n} (h : Scalar.Joins a b s) :
    Arithmetic op (.scalar a) (.vector b n) (.vector s n)
  | matrixScalar {a c r} (h : Scalar.Joins .float a .float) :
    Arithmetic op (.matrix c r) (.scalar a) (.matrix c r)
  | scalarMatrix {a c r} (h : Scalar.Joins a .float .float) :
    Arithmetic op (.scalar a) (.matrix c r) (.matrix c r)
  | matrices {c r} (h : op ≠ .mul) : Arithmetic op (.matrix c r) (.matrix c r) (.matrix c r)
  | matrixVector {a c r} (hop : op = .mul) (h : Scalar.Joins .float a .float) :
    Arithmetic op (.matrix c r) (.vector a c) (.vec r)
  | vectorMatrix {a c r} (hop : op = .mul) (h : Scalar.Joins a .float .float) :
    Arithmetic op (.vector a r) (.matrix c r) (.vec c)
  | product {c d r} (hop : op = .mul) :
    Arithmetic op (.matrix c r) (.matrix d c) (.matrix d r)

/-- Remainders and operations on single bits, which take integers of one sign only. -/
inductive Integral (s : Scalar) : ShaderType → ShaderType → ShaderType → Prop where
  | scalars : Integral s (.scalar s) (.scalar s) (.scalar s)
  | vectors {n} : Integral s (.vector s n) (.vector s n) (.vector s n)
  | vectorScalar {n} : Integral s (.vector s n) (.scalar s) (.vector s n)
  | scalarVector {n} : Integral s (.scalar s) (.vector s n) (.vector s n)

/-- The types that can be shifted, with those of the distance. -/
inductive Shifts : ShaderType → ShaderType → Prop where
  | scalars {a b} (ha : a.isInteger = true) (hb : b.isInteger = true) :
    Shifts (.scalar a) (.scalar b)
  | vectors {a b n} (ha : a.isInteger = true) (hb : b.isInteger = true) :
    Shifts (.vector a n) (.vector b n)
  | vectorScalar {a b n} (ha : a.isInteger = true) (hb : b.isInteger = true) :
    Shifts (.vector a n) (.scalar b)

inductive Operation : BinOp → ShaderType → ShaderType → ShaderType → Prop where
  | arithmetic {op l r t} (hop : op ∈ [.add, .sub, .mul, .div]) (h : Arithmetic op l r t) :
    Operation op l r t
  | remainder {s l r t} (hs : s.isInteger = true) (h : Integral s l r t) : Operation .rem l r t
  | bitwise {op s l r t} (hop : op.isBitwise = true) (hs : s.isInteger = true)
    (h : Integral s l r t) : Operation op l r t
  | shift {op l r} (hop : op.isShift = true) (h : Shifts l r) : Operation op l r l
  | order {op a b s} (hop : op ∈ [.lt, .gt, .le, .ge]) (h : Scalar.Joins a b s) :
    Operation op (.scalar a) (.scalar b) .bool
  | equality {op l r} (hop : op ∈ [.eq, .ne]) (h : Converts l r ∨ Converts r l) :
    Operation op l r .bool
  | logical {op} (hop : op.isLogical = true) : Operation op .bool .bool .bool

/-- The types that signs and steps leave as they are. -/
def isNumeric (t : ShaderType) : Bool :=
  t.isFloatBased || t.isIntegerBased

end ShaderType

/-! ## Expressions -/

namespace Env

/-- What a name stands for: its declaration in the innermost scope that has one, else what the host
provides. -/
inductive Stands (env : Env) (name : String) : ShaderType → Prop where
  | declared {t inner scope outer} (hscopes : env.scopes = inner ++ scope :: outer)
    (hidden : ∀ s ∈ inner, s.lookup name = none) (found : scope.lookup name = some t) :
    Stands env name t
  | host {t} (hidden : ∀ s ∈ env.scopes, s.lookup name = none)
    (found : env.host.lookup name = some t) : Stands env name t

end Env

/-- The name chooses one to four components of a vector of the given width, with the letters of one
set. -/
def Chooses (width : Nat) (name : String) : Prop :=
  name.toList ≠ [] ∧ name.toList.length ≤ 4 ∧
    ∃ set ∈ laneSets, ∀ c ∈ name.toList, c ∈ set.take width

def MarkedUnsigned (text : String) : Prop :=
  text.toList.getLast? = some 'u' ∨ text.toList.getLast? = some 'U'

mutual

/-- The expression has the type in the scopes of `env`. Whether the arguments of a constructor fill
its type is not asked. -/
inductive HasType (env : Env) : Expr → ShaderType → Prop where
  | signed {text} (h : ¬ MarkedUnsigned text) : HasType env (.int text) .int
  | unsigned {text} (h : MarkedUnsigned text) : HasType env (.int text) (.scalar .uint)
  | float {text} : HasType env (.float text) .float
  | bool {value} : HasType env (.bool value) .bool
  | ident {name t} (h : env.Stands name t) : HasType env (.ident name) t
  | not {e} (he : HasType env e .bool) : HasType env (.unary .not e) .bool
  | unary {op e t} (hop : op ≠ .not) (he : HasType env e t) (ht : t.isNumeric = true)
    (hbits : op = .bitNot → t.isIntegerBased = true) : HasType env (.unary op e) t
  | binary {op lhs rhs l r t} (hl : HasType env lhs l) (hr : HasType env rhs r)
    (h : ShaderType.Operation op l r t) : HasType env (.binary op lhs rhs) t
  | assign {lhs rhs t u} (hl : HasType env lhs t) (hr : HasType env rhs u)
    (h : ShaderType.Converts u t) : HasType env (.assign none lhs rhs) t
  | compound {op lhs rhs t u} (hl : HasType env lhs t) (hr : HasType env rhs u)
    (h : ShaderType.Operation op t u t) : HasType env (.assign (some op) lhs rhs) t
  | conditional {cond whenTrue whenFalse t} (hc : HasType env cond .bool)
    (ht : HasType env whenTrue t) (hf : HasType env whenFalse t) :
    HasType env (.conditional cond whenTrue whenFalse) t
  | call {name args ts s} (hargs : HaveTypes env args ts) (hs : s ∈ env.functions)
    (hname : s.name = name) (hparams : s.params = ts) : HasType env (.call name args) s.returns
  | construct {type args ts} (hargs : HaveTypes env args ts)
    (h : ∀ elem, type ≠ .array elem .unsized) : HasType env (.construct type args) type
  | elements {elem args ts} (hargs : HaveTypes env args ts) :
    HasType env (.construct (.array elem .unsized) args) (.array elem (.fixed args.length))
  | lanes {base name s width} (hb : HasType env base (.vector s width)) (h : Chooses width name) :
    HasType env (.field base name) (.ofComponents s name.toList.length)
  | member {base struct name t} (hb : HasType env base (.struct struct))
    (h : env.member? struct name = some t) : HasType env (.field base name) t
  | component {base position s p width} (hb : HasType env base (.vector s width))
    (hp : HasType env position (.scalar p)) (h : p.isInteger = true) :
    HasType env (.index base position) (.scalar s)
  | column {base position p columns rows} (hb : HasType env base (.matrix columns rows))
    (hp : HasType env position (.scalar p)) (h : p.isInteger = true) :
    HasType env (.index base position) (.vec rows)
  | element {base position elem length p} (hb : HasType env base (.array elem length))
    (hp : HasType env position (.scalar p)) (h : p.isInteger = true) :
    HasType env (.index base position) elem
  | comma {items ts t} (hitems : HaveTypes env items ts) (h : ts.getLast? = some t) :
    HasType env (.comma items) t

/-- The expressions have the types, one by one. -/
inductive HaveTypes (env : Env) : List Expr → List ShaderType → Prop where
  | nil : HaveTypes env [] []
  | cons {e es t ts} (h : HasType env e t) (hs : HaveTypes env es ts) :
    HaveTypes env (e :: es) (t :: ts)

end

end ShaderEffect
