import LinkedCache.Bounds
import LinkedCache.Decimal.Literal
import LinkedCache.Json.Value
import LinkedCache.Text

-- The settings of a component, and how an environment of named texts gives them.

namespace LinkedCache

structure Config where
  -- The component served here; without a domain all components are.
  domain : String := ""
  package : String := ""
  orgId : String := ""
  retryInitialMs : Nat := 1000
  retryMultiplier : Float := 2
  retryExponential : Bool := true
  retryMaxAttempts : Nat := 5
  bufferRetentionSecs : Nat := 7 * 24 * 60 * 60
  bufferCleanupSecs : Nat := 60 * 60
  queueCap : Nat := 2048
deriving DecidableEq, Repr, Inhabited

namespace Config

def forComponent (domain package orgId : String) : Config :=
  { domain := Text.lower domain, package := Text.lower package, orgId }

def cleanupIntervalSecs (c : Config) : Nat :=
  max c.bufferCleanupSecs 1

def bool? : String → Option Bool
  | "true" => some true
  | "false" => some false
  | _ => none

-- The settings in an environment. A text that does not parse counts as absent, and what is absent
-- has its default.
def ofEnvironment (env : List (String × String)) : Config :=
  let d : Config := {}
  let text (name : String) (default : String) : String := (env.lookup name).getD default
  let bounded (limit : Nat) (name : String) (default : Nat) : Nat :=
    ((env.lookup name).bind (Text.natural? limit)).getD default
  let natural := bounded Bounds.maxNat64
  { domain := Text.lower (text "TETHER_DOMAIN" d.domain)
    package := Text.lower (text "TETHER_PACKAGE" d.package)
    orgId := text "TETHER_ORG_ID" d.orgId
    retryInitialMs := natural "TETHER_RETRY_INITIAL_MS" d.retryInitialMs
    retryMultiplier :=
      ((env.lookup "TETHER_RETRY_MULTIPLIER").bind Decimal.read?).getD d.retryMultiplier
    retryExponential :=
      ((env.lookup "TETHER_RETRY_EXPONENTIAL").bind bool?).getD d.retryExponential
    retryMaxAttempts := bounded Bounds.maxNat32 "TETHER_RETRY_MAX_ATTEMPTS" d.retryMaxAttempts
    bufferRetentionSecs := natural "TETHER_BUFFER_RETENTION_SECS" d.bufferRetentionSecs
    bufferCleanupSecs := natural "TETHER_BUFFER_CLEANUP_SECS" d.bufferCleanupSecs
    queueCap := natural "TETHER_QUEUE_CAP" d.queueCap }

def toValue (c : Config) : Json.Value :=
  .object [("domain", .string c.domain), ("package", .string c.package),
    ("org_id", .string c.orgId), ("retry_initial_ms", .int c.retryInitialMs),
    ("retry_multiplier", .float c.retryMultiplier),
    ("retry_exponential", .bool c.retryExponential),
    ("retry_max_attempts", .int c.retryMaxAttempts),
    ("buffer_retention_secs", .int c.bufferRetentionSecs),
    ("buffer_cleanup_secs", .int c.bufferCleanupSecs), ("queue_cap", .int c.queueCap)]

end Config
end LinkedCache
