import LinkedCache.Error
import LinkedCache.Json.Value
import LinkedCache.Text

-- Descriptors name resource types: `domain/package/name`, in ASCII lower case, so that two
-- spellings of one type are equal.

namespace LinkedCache

structure Descriptor where
  domain : String
  package : String
  name : String
deriving DecidableEq, Repr, Inhabited

namespace Descriptor

-- The descriptor of the three parts, whatever they hold.
def of (domain package name : String) : Descriptor :=
  ⟨Text.lower domain, Text.lower package, Text.lower name⟩

def text (d : Descriptor) : String :=
  d.domain ++ "/" ++ d.package ++ "/" ++ d.name

-- A text of exactly three parts, none of them empty.
def parse (s : String) : Except Error Descriptor :=
  match Text.pieces '/' s with
  | [domain, package, name] =>
    if domain.isEmpty || package.isEmpty || name.isEmpty then .error (.invalidDescriptor s)
    else .ok (of domain package name)
  | _ => .error (.invalidDescriptor s)

-- Whether the type belongs to a component, in any spelling of it.
def sameComponent (d : Descriptor) (domain package : String) : Bool :=
  Text.sameFolded d.domain domain && Text.sameFolded d.package package

def compare (a b : Descriptor) : Ordering :=
  (Ord.compare a.domain b.domain).then
    ((Ord.compare a.package b.package).then (Ord.compare a.name b.name))

def le (a b : Descriptor) : Bool :=
  (a.compare b).isLE

def sorted (ds : List Descriptor) : List Descriptor :=
  ds.mergeSort le

def toValue (d : Descriptor) : Json.Value :=
  .string d.text

def ofValue? : Json.Value → Option Descriptor
  | .string s => (parse s).toOption
  | _ => none

end Descriptor
end LinkedCache
