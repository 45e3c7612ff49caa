import Std.Data.TreeMap
import LineSearch.Pattern.Parser

/-! Compiled patterns remembered by their source text, and computations that ask for them. -/
namespace LineSearch

/-- Entries are only ever added. Texts that do not compile are not remembered. -/
structure Cache where
  entries : Std.TreeMap Text Pattern := ∅

namespace Cache

def empty : Cache := {}

def find? (cache : Cache) (source : Text) : Option Pattern := cache.entries[source]?

def contains (cache : Cache) (source : Text) : Bool := cache.entries.contains source

def size (cache : Cache) : Nat := cache.entries.size

def insert (cache : Cache) (source : Text) (pattern : Pattern) : Cache :=
  { entries := cache.entries.insert source pattern }

/-- Answers from the cache where it can, and remembers what it has to parse. -/
def compile (cache : Cache) (source : Text) : Except CompileError Pattern × Cache :=
  match cache.find? source with
  | some pattern => (.ok pattern, cache)
  | none =>
    match Pattern.parse source with
    | .ok pattern => (.ok pattern, cache.insert source pattern)
    | .error e => (.error e, cache)

@[simp] theorem find?_empty (source : Text) : empty.find? source = none := by
  simp [find?, empty]

theorem find?_insert (cache : Cache) (source other : Text) (pattern : Pattern) :
    (cache.insert source pattern).find? other =
      if source = other then some pattern else cache.find? other := by
  simp [find?, insert, Std.TreeMap.getElem?_insert, Std.LawfulEqCmp.compare_eq_iff_eq]

theorem contains_eq (cache : Cache) (source : Text) :
    cache.contains source = (cache.find? source).isSome := by
  simp [contains, find?]

end Cache

/-! Computations that ask for compiled patterns on the way, apart from how they are answered. -/

inductive OnDemand (α : Type) where
  | done (value : α)
  | compile (source : Text) (next : Except CompileError Pattern → OnDemand α)

namespace OnDemand
variable {α β : Type}

def bind : OnDemand α → (α → OnDemand β) → OnDemand β
  | .done a, f => f a
  | .compile source next, f => .compile source fun answer => (next answer).bind f

instance : Monad OnDemand where
  pure := .done
  bind := bind

def request (source : Text) : OnDemand (Except CompileError Pattern) := .compile source .done

/-- The value when every request is answered by parsing. -/
def fresh : OnDemand α → α
  | .done a => a
  | .compile source next => (next (Pattern.parse source)).fresh

def run : OnDemand α → Cache → α × Cache
  | .done a, cache => (a, cache)
  | .compile source next, cache => (next (cache.compile source).1).run (cache.compile source).2

@[simp] theorem fresh_pure (a : α) : (pure a : OnDemand α).fresh = a := rfl

@[simp] theorem fresh_request (source : Text) : (request source).fresh = Pattern.parse source := rfl

@[simp] theorem fresh_bind (x : OnDemand α) (f : α → OnDemand β) :
    (x >>= f).fresh = (f x.fresh).fresh := by
  induction x with
  | done a => rfl
  | compile source next ih => exact ih _

@[simp] theorem run_bind (x : OnDemand α) (f : α → OnDemand β) (cache : Cache) :
    (x >>= f).run cache = (f (x.run cache).1).run (x.run cache).2 := by
  induction x generalizing cache with
  | done a => rfl
  | compile source next ih => exact ih _ _

end OnDemand

end LineSearch
