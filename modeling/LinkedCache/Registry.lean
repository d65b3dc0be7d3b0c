import LinkedCache.Rule

-- The registry of rules: for each type the rules that it triggers, and the relations under which
-- other types link back to it.

namespace LinkedCache

structure Registry where
  triggered : List (Descriptor × List Rule) := []
  inverse : List (Descriptor × List String) := []
deriving DecidableEq, Repr, Inhabited

namespace Registry

-- Appends an item to the list of a type, unless it is there already.
def enter {α : Type} [DecidableEq α] (type : Descriptor) (a : α) :
    List (Descriptor × List α) → List (Descriptor × List α)
  | [] => [(type, [a])]
  | (t, as) :: rest =>
    if t = type then (t, if a ∈ as then as else as ++ [a]) :: rest
    else (t, as) :: enter type a rest

def listed {α : Type} (type : Descriptor) (table : List (Descriptor × List α)) : List α :=
  (table.lookup type).getD []

-- Enters a rule under its triggering type, and its inverse relation under its target.
def enterRule (g : Registry) (type : Descriptor) (rule : Rule) : Registry where
  triggered := enter type rule g.triggered
  inverse := enter rule.target rule.inverse g.inverse

-- The registry of rules given by triggering type. A type may be given several times.
def ofRules (given : List (Descriptor × List Rule)) : Registry :=
  given.foldl (fun g (type, rules) => rules.foldl (·.enterRule type ·) g) {}

def rulesOf (g : Registry) (type : Descriptor) : List Rule :=
  listed type g.triggered

def inverseRelationsOf (g : Registry) (type : Descriptor) : List String :=
  listed type g.inverse

def ruleLE (a b : Descriptor × Rule) : Bool :=
  ((a.1.compare b.1).then (compare a.2.relation b.2.relation)).isLE

def allRules (g : Registry) : List (Descriptor × Rule) :=
  (g.triggered.flatMap fun (type, rules) => rules.map (type, ·)).mergeSort ruleLE

def ruleCount (g : Registry) : Nat :=
  (g.triggered.flatMap (·.2)).length

end Registry
end LinkedCache
