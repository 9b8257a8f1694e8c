import CppUtility.Regex.Search
import CppUtility.Router.Template
import Mathlib.Data.Finmap

/-!
# `Route`: one registered path

A route with a parameter in its path holds a regular expression, the path with a group for each
parameter, and the names of the parameters in the order of the groups.  `matches` searches the
request path for the expression, after one trailing `/` has been taken off; `generateHandler`
searches the request path as it came and passes what the groups have captured to the generator.

* **Strings** are lists of characters, and positions in them are natural numbers.
* **Expressions** are those of `CppUtility.Regex`: `createPattenRegex` builds a text and compiles
  it, and `m_reToken` is compiled too.
* **Handlers** are values of an arbitrary type.  What a route does with its generator is to call it
  with the parameters; that it may not have been set is a `std::bad_function_call`.
* **Faults.**  An `assert`, an `abort` and the exceptions of the library end a call without a
  result.  After an exception the object under construction is gone, so nothing else is recorded.

`matches` is a keyword here, and the function goes by `doesMatch`.  The source defines
`createPattenRegex` as a member of `Router`, with a slip in the name of a variable that the compiler
would reject; it is taken as what `Router.h` declares, a member of `Route`, and the variable `str`
as the one that is meant.
-/

set_option autoImplicit false

open Template Regex

/-- `proxygen::HTTPMethod`; the methods that the router has no function for go by a number. -/
inductive HTTPMethod
  | GET | POST | PUT | DELETE
  | other (n : ℕ)
  deriving DecidableEq, Repr

/-- What ends a call other than by returning: a failed `assert`, `abort`, a `std::regex_error`, or
a `std::bad_function_call`. -/
inductive Fault
  | assertion | abort | regexError | badFunctionCall
  deriving DecidableEq, Repr

/-- `PathParams`. -/
abbrev PathParams : Type := Finmap fun _ : List Char ↦ List Char

/-- `emplace`: a key that is there keeps its value. -/
def PathParams.emplace (params : PathParams) (key value : List Char) : PathParams :=
  if key ∈ params then params else params.insert key value

/-- The members of a `Route`. -/
structure Route (H : Type) where
  m_next : Option ℕ
  m_method : HTTPMethod
  m_path : List Char
  m_pattern : Option Pattern
  m_generator : Option (PathParams → H)
  m_groups : List (List Char)

namespace Route

variable {H : Type}

/-! ## Construction -/

/-- `m_reToken`. -/
def m_reToken : Pattern := (compile ":([A-Za-z][A-Za-z_0-9]*)".toList).get (by decide)

/-- `checkPath`. -/
def checkPath (path : List Char) : Except Fault Unit :=
  if path ≠ [] ∧ path.head? = some '/' then .ok () else .error .assertion

/-- The variables of the loop of `createPattenRegex`; the `int pos` is a natural number here, so the
paths are shorter than 2³¹. -/
structure TokenLoop where
  pos : ℕ
  ss : List Char
  m_groups : List (List Char)

/-- One iteration: `next` is the match that the iterator is at. -/
def tokenStep (path : List Char) (l : TokenLoop) (next : Match) : Except Fault TokenLoop :=
  let str := if next.str.head? = some ':' then next.str.tail else next.str
  if str ∈ l.m_groups then .error .abort
  else .ok
    { m_groups := l.m_groups ++ [str]
      ss := l.ss ++ (path.drop l.pos).take (next.position - l.pos) ++ "([^/]+)".toList
      pos := next.position + next.str.length }

/-- `createPattenRegex`. -/
def createPattenRegex (r : Route H) (path : List Char) : Except Fault (Route H) := do
  let l ← (m_reToken.re.iterate path).foldlM (tokenStep path) ⟨0, [], r.m_groups⟩
  match compile (l.ss ++ path.drop l.pos) with
  | none => .error .regexError
  | some pattern => .ok { r with m_groups := l.m_groups, m_pattern := some pattern }

/-- `setPath`. -/
def setPath (r : Route H) (path : List Char) : Except Fault (Route H) :=
  if ':' ∈ path then (r.createPattenRegex path).map fun r ↦ { r with m_path := path }
  else if 1 < path.length ∧ path.getLast? = some '/' then .ok { r with m_path := path.dropLast }
  else .ok { r with m_path := if path = [] then ['/'] else path }

/-- The constructor. -/
def new (method : HTTPMethod) (path : List Char) : Except Fault (Route H) := do
  checkPath path
  setPath ⟨none, method, [], none, none, []⟩ path

/-- `setNext`. -/
def setNext (r : Route H) (next : Option ℕ) : Route H := { r with m_next := next }

/-- `next`. -/
def next (r : Route H) : Option ℕ := r.m_next

/-- `handler`. -/
def handler (r : Route H) (generator : PathParams → H) : Route H :=
  { r with m_generator := some generator }

/-! ## Requests

`searched` is the beginning of `matches`, and is used by nothing else: `generateHandler` does not
shorten the path that it is given. -/

/-- The path that `matches` looks at. -/
def searched (path : List Char) : List Char :=
  if path = [] then ['/']
  else if 1 < path.length ∧ path.getLast? = some '/' then path.dropLast
  else path

/-- `matches`. -/
def doesMatch (r : Route H) (method : HTTPMethod) (path : List Char) : Bool :=
  if r.m_method ≠ method then false
  else match r.m_pattern with
    | some pattern => (pattern.re.search (searched path)).isSome
    | none => r.m_path = searched path

/-- A call of `m_generator`. -/
def generate (r : Route H) (params : PathParams) : Except Fault H :=
  match r.m_generator with
  | none => .error .badFunctionCall
  | some generator => .ok (generator params)

/-- The loop of `generateHandler`, from the group `i + 1` on. -/
def pathParams (m : Match) : ℕ → List (List Char) → PathParams → PathParams
  | _, [], params => params
  | i, name :: names, params =>
    pathParams m (i + 1) names (params.emplace name (m.get (i + 1)))

/-- `generateHandler`.  Without a match `m.size() - 1` wraps around to the largest `size_t`, which
is the size of no vector. -/
def generateHandler (r : Route H) (path : List Char) : Except Fault H :=
  match r.m_pattern with
  | none => r.generate ∅
  | some pattern => match pattern.re.search path with
    | none => .error .abort
    | some m =>
      if r.m_groups.length ≠ pattern.mark_count then .error .abort
      else r.generate (pathParams m 0 r.m_groups ∅)

end Route
