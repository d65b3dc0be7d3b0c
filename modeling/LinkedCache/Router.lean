import LinkedCache.Apply
import LinkedCache.Channel
import LinkedCache.Retry.Worker
import LinkedCache.Text.Quoted

-- Routing of updates: applied here, left waiting for a target, or published to whoever caches the
-- type of the target. What could not be done is queued for another try.

namespace LinkedCache

-- Where updates for types that are not cached here are published. A publisher may refuse an update,
-- and then is as it was.
class Publisher (Outbound : Type) where
  publish : Update → Outbound → Except String Outbound

instance : Publisher (Channel Update) where
  publish u c := c.send u

-- A publisher that takes everything and keeps nothing.
instance : Publisher Unit where
  publish _ _ := .ok ()

inductive Route where
  | applied
  | buffered
  | published
deriving DecidableEq, Repr, Inhabited

namespace Route

def word : Route → String
  | applied => "local"
  | buffered => "buffered"
  | published => "published"

end Route

structure Router (Outbound : Type) where
  cache : Cache
  outbound : Outbound

namespace Router

variable {Outbound : Type} [Publisher Outbound]

-- Applies an update or publishes it. A refusal of the publisher is the error.
def route (r : Router Outbound) (u : Update) (now : Int) : Except String Route × Router Outbound :=
  match r.cache.apply u now with
  | (.applied, cache) => (.ok .applied, { r with cache })
  | (.pending, cache) => (.ok .buffered, { r with cache })
  | (.notLocal, cache) =>
    match Publisher.publish u r.outbound with
    | .ok outbound => (.ok .published, { r with cache, outbound })
    | .error e => (.error e, { r with cache })

def missing (u : Update) : String :=
  "target " ++ u.target.text ++ " " ++ Text.quotedList u.targetIds ++ " not cached"

-- Tries an update again. Waiting for a target counts as a failure.
def redeliver (r : Router Outbound) (u : Update) (now : Int) : Option String × Router Outbound :=
  match r.route u now with
  | (.ok .buffered, r) => (some (missing u), r)
  | (.ok _, r) => (none, r)
  | (.error e, r) => (some e, r)

end Router
end LinkedCache
