import LinkedCache.Retry.Queue

-- The worker that delivers what is due. It works on a queue and on a world of its own, in which
-- deliveries are made and dead letters are laid down.

namespace LinkedCache.Retry

-- How updates are delivered at some time, with an error if that failed, and where dead letters go.
structure Delivery (World : Type) where
  deliver : Nat → Update → World → Option String × World
  bury : Nat → DeadLetter → World → World

namespace Worker

variable {World : Type}

def attempt (policy : Policy) (d : Delivery World) (now : Nat) (q : Queue) (w : World)
    (item : Scheduled) : Queue × World :=
  let (error, w) := d.deliver now item.update w
  match q.settle policy now item error with
  | (q, none) => (q, w)
  | (q, some letter) => (q, d.bury now letter w)

-- One pass: takes out what is due, drops what is obsolete and delivers the rest in order.
def pass (policy : Policy) (d : Delivery World) (now : Nat) (q : Queue) (w : World) :
    Queue × World :=
  ((q.due now).filter q.isLive).foldl (fun (q, w) item => attempt policy d now q w item)
    (q.withoutDue now, w)

-- Passes at each time at which something is due, up to `horizon`. Every pass makes an attempt or
-- drops an update, so the number of passes is bounded by `fuel`.
def runFor (policy : Policy) (d : Delivery World) (horizon now : Nat) (q : Queue) (w : World) :
    Nat → Queue × World
  | 0 => (q, w)
  | fuel + 1 =>
    match q.nextDue? with
    | none => (q, w)
    | some due =>
      if due ≤ horizon then
        let now := max now due
        let (q, w) := pass policy d now q w
        runFor policy d horizon now q w fuel
      else (q, w)

def run (policy : Policy) (d : Delivery World) (horizon now : Nat) (q : Queue) (w : World) :
    Queue × World :=
  runFor policy d horizon now q w (q.workload policy)

end Worker
end LinkedCache.Retry
