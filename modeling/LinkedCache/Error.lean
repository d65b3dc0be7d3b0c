namespace LinkedCache

inductive Error where
  | conversion (detail : String)
  | invalidLink (href : String)
  | missingLink (resource relation : String)
  -- A resource that no other resource could link to.
  | missingIdentity (resource : String)
  | unknownResource (resource : String)
  | invalidDescriptor (text : String)
deriving DecidableEq, Repr

namespace Error

def kind : Error → String
  | conversion _ => "conversion"
  | invalidLink _ => "invalid_link_format"
  | missingLink _ _ => "missing_mandatory_link"
  | missingIdentity _ => "missing_identity"
  | unknownResource _ => "unknown_resource"
  | invalidDescriptor _ => "invalid_descriptor"

def message : Error → String
  | conversion detail => "conversion: " ++ detail
  | invalidLink href => "invalid link format: " ++ href
  | missingLink resource relation =>
    "missing mandatory link " ++ relation ++ " on " ++ resource
  | missingIdentity resource =>
    "resource " ++ resource ++ " has no identity to link back with"
  | unknownResource resource => "unknown resource type: " ++ resource
  | invalidDescriptor text =>
    "invalid descriptor: " ++ text ++ " (expect domain/package/name)"

end Error
end LinkedCache
