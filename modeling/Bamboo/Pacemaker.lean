import Bamboo.Types

/-!
# Pacemaker

The timeout and the view-change controller are the same counter over different
messages: more than two thirds of the network must be heard for a view, and a
view that has been certified once is never certified again. The channel of new
views is kept as the list of everything pushed onto it. It has room for `capacity`
views that nobody has taken, and a push onto the full channel waits, with the lock of
the pacemaker held; `Backlog` says when this does not happen.
-/
namespace Bamboo

structure Controller (M : Type) where
  n : ℕ
  timeouts : Map View (Map NodeID M)

namespace Controller

variable {M : Type}

def total (c : Controller M) (view : View) : ℕ :=
  ((c.timeouts.lookup view).getD ∅).entries.length

def superMajority (c : Controller M) (view : View) : Bool :=
  decide (c.n * 2 / 3 < c.total view)

/-- The view of the certificate, when this message completes one. -/
def add (c : Controller M) (view : View) (nodeID : NodeID) (m : M) : Option View × Controller M :=
  if c.superMajority view then (none, c)
  else
    let senders : Map NodeID M := (c.timeouts.lookup view).getD ∅
    let c := { c with timeouts := c.timeouts.insert view (senders.insert nodeID m) }
    if c.superMajority view then (some view, c) else (none, c)

end Controller

structure Pacemaker where
  curView : View
  newViewChan : List View
  timeoutController : Controller TMO
  viewChangeController : Controller VMO

namespace Pacemaker

/-- The room in `newViewChan`. -/
def capacity : ℕ := 100

def new (n : ℕ) : Pacemaker := ⟨0, [], ⟨n, ∅⟩, ⟨n, ∅⟩⟩

def addTmo (c : Controller TMO) (tmo : TMO) : Option View × Controller TMO :=
  c.add tmo.view tmo.nodeID tmo

def addVmo (c : Controller VMO) (vmo : VMO) : Option View × Controller VMO :=
  c.add vmo.view vmo.nodeID vmo

def processRemoteTmo (p : Pacemaker) (tmo : TMO) : Option View × Pacemaker :=
  if tmo.view < p.curView then (none, p)
  else
    let (tc, c) := addTmo p.timeoutController tmo
    (tc, { p with timeoutController := c })

def processRemoteVmo (p : Pacemaker) (vmo : VMO) : Option View × Pacemaker :=
  if vmo.view < p.curView then (none, p)
  else
    let (vc, c) := addVmo p.viewChangeController vmo
    (vc, { p with viewChangeController := c })

def advanceView (p : Pacemaker) (view : View) : Pacemaker :=
  if view < p.curView then p
  else { p with curView := view + 1, newViewChan := p.newViewChan ++ [view + 1] }

end Pacemaker

end Bamboo
