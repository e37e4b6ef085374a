import Mathlib.Data.Set.Insert
import Norte.SessionStore

/-! A frontend: the screen with what it carries of a saved session, the policy that says when
it is saved, and the writer that talks to the daemon. The history variables `Taking` and
`Mark` say what was read when the session was taken over; no step looks at them. -/
namespace Norte.UiSession

variable {P V : Type}

/-- What the writer read when it took the session over, and what it had written before.
`whole`: read at the start, when there was no screen yet. -/
structure Taking (P V : Type) where
  stored : Option (SessionBody P V)
  known : Option (SessionBody P V)
  whole : Bool

/-- The takeover the screen last heard of, and since then the slots it placed or took from a
later reread, and the layout keys it showed. -/
structure Mark (P V : Type) where
  taking : Taking P V
  slots : Set Layout.SlotId
  keys : Set Str

/-- Slots of `over` over those of `base`. -/
def insertAll (over_ base : Layout.SlotId → Option (SlotState V)) : Layout.SlotId → Option (SlotState V) :=
  fun id => (over_ id).or (base id)

namespace SessionBody

/-- Drops the history, which takes up the most. -/
def degradeForSize (b : SessionBody P V) : SessionBody P V :=
  { b with slots := fun id => (b.slots id).map fun s => { s with back := [], forward := [] } }

def withOrphans (b : SessionBody P V) (orphans : Layout.SlotId → Option (SlotState V)) : SessionBody P V :=
  { b with slots := insertAll orphans b.slots }

end SessionBody

/-- The slots `remote` has saved that `local_` does not have. -/
def foreignOrphans (local_ remote : SessionBody P V) : Layout.SlotId → Option (SlotState V) :=
  fun id => if (local_.slots id).isSome then none else remote.slots id

/-- The same of a document, which may be none a body is read from. -/
def orphansOf (local_ : SessionBody P V) (remote : Option (SessionBody P V)) :
    Layout.SlotId → Option (SlotState V) :=
  match remote with
  | some remote => foreignOrphans local_ remote
  | none => fun _ => none

def marksCap : Nat := 4096

/-- `WINDOW_LAYOUT_SUFFIX`. -/
def windowLayoutKey (profile : Str) : Str := profile ++ "@window".toList

/-- The screen. `panes` are the slots that show a listing; `orphans` and `otherLayouts` are
carried for slots it does not place and profiles it does not show. -/
structure App (P V : Type) where
  sessionKey : Str
  layout : Layout.Node P
  panes : Layout.SlotId → Option (SlotState V)
  orphans : Layout.SlotId → Option (SlotState V)
  otherLayouts : Str → Option (Layout.Node P)
  touched : Layout.SlotId → Option Nat
  detached : Bool
  revision : UInt64
  mark : Option (Mark P V)

namespace App

/-- A slot as it is saved: the marks travel only in a handoff. -/
def capture (a : App P V) (marks : Bool) (id : Layout.SlotId) (pane : SlotState V) : SlotState V :=
  { pane with touchedMs := (a.touched id).getD 0, marks := if marks then pane.marks.take marksCap else [] }

def sessionBodyWithMarks (a : App P V) (marks : Bool) : SessionBody P V where
  layouts :=
    let layouts := Function.update a.otherLayouts a.sessionKey (some a.layout)
    if marks then Function.update layouts (windowLayoutKey a.sessionKey) (some a.layout) else layouts
  slots := fun id =>
    if id ∈ a.layout.slotIds then ((a.panes id).map (a.capture marks id)).or (a.orphans id) else a.orphans id

/-- Puts a saved session on the screen. `panels` opens and closes panels after the saved ones. -/
def applySession (panels : Layout.Node P → Layout.Node P) (a : App P V) (body : SessionBody P V) : App P V :=
  let layout := panels ((body.layouts a.sessionKey).getD a.layout)
  { a with
    layout := layout
    otherLayouts := Function.update body.layouts a.sessionKey none
    touched := fun id => ((body.slots id).map SlotState.touchedMs).or (a.touched id)
    orphans := fun id => if id ∈ layout.slotIds then none else body.slots id
    panes := fun id =>
      if id ∈ layout.slotIds then ((body.slots id).map fun s => { s with marks := [] }).or (a.panes id)
      else a.panes id }

/-- Adopts slots another window kept: those of the live layout are ours. -/
def adoptSessionOrphans (a : App P V) (foreign : Layout.SlotId → Option (SlotState V)) : App P V :=
  let dead := fun id => if id ∈ a.layout.slotIds then none else foreign id
  { a with
    touched := fun id => ((dead id).map SlotState.touchedMs).or (a.touched id)
    orphans := insertAll dead a.orphans }

/-- A document at the start. One from the future leaves the window detached. -/
def applySessionValue (panels : Layout.Node P → Layout.Node P) (a : App P V) (s : Session P V) : App P V :=
  match SessionBody.fromValue s.version s.body with
  | .ok body => a.applySession panels body
  | .error .fromTheFuture => { a with detached := true }
  | .error .malformed => a

end App

/-- `OWNER_RETRY_TICKS`. -/
def ownerRetryTicks : Nat := 30

inductive PushStep where
  | skip
  | ask
  | capture
  deriving DecidableEq, Repr

structure PushPolicy (P V : Type) where
  last : Option (SessionBody P V)
  retryIn : Nat
  retryEvery : Nat

namespace PushPolicy

def new (retryEvery : Nat) : PushPolicy P V := ⟨none, max retryEvery 1, max retryEvery 1⟩

def tick (p : PushPolicy P V) (detached blocked : Bool) : PushStep × PushPolicy P V :=
  if detached then
    if p.retryIn - 1 = 0 then (.ask, { p with retryIn := p.retryEvery })
    else (.skip, { p with retryIn := p.retryIn - 1 })
  else if blocked then (.skip, p)
  else (.capture, p)

/-- Whether a live slot moved since the last body that was sent. -/
def moved [DecidableEq V] (p : PushPolicy P V) (body : SessionBody P V) (id : Layout.SlotId) : Bool :=
  (body.slots id).isSome && !((p.last.bind fun b => b.slots id) = body.slots id)

/-- Seals the live slots that moved. A body within the caps is not pruned. -/
def prepare [DecidableEq V] (p : PushPolicy P V) (body : SessionBody P V) (live : List Layout.SlotId) (nowMs : Nat) :
    SessionBody P V × List Layout.SlotId :=
  let sealed := live.filter (p.moved body)
  ({ body with slots := fun id =>
      if sealed.contains id then (body.slots id).map fun s => { s with touchedMs := nowMs } else body.slots id },
    sealed)

def sent (p : PushPolicy P V) (body : SessionBody P V) : PushPolicy P V := { p with last := some body }
def resend (p : PushPolicy P V) : PushPolicy P V := { p with last := none }
def askSoon (p : PushPolicy P V) : PushPolicy P V := { p with retryIn := 1 }

end PushPolicy

/-- What the screen sends the writer. -/
inductive SessionOrder (P V : Type) where
  | write (body : SessionBody P V) (mark : Option (Mark P V))
  | ask
  | handoff (body : SessionBody P V) (mark : Option (Mark P V))

/-- What the writer tells the screen. -/
inductive SessionNotice (P V : Type) where
  | tooLarge
  | retry (orphans : Layout.SlotId → Option (SlotState V))
  | owner (revision : UInt64) (orphans : Layout.SlotId → Option (SlotState V)) (taking : Taking P V)
  | released
  | handedOff (released : Bool)

/-- Where the writer waits: for an order, for the answer to a call, or for room to tell. -/
inductive Point (P V : Type) where
  | idle
  | asking
  | putting (body : SessionBody P V) (mark : Option (Mark P V)) (handingOff : Bool)
  | rereading (body : SessionBody P V) (handingOff : Bool)
  | retrying (body : SessionBody P V) (orphans : Layout.SlotId → Option (SlotState V)) (handingOff : Bool)
  | trimmed (body : SessionBody P V) (handingOff : Bool)
  | releasing
  | telling (notice : SessionNotice P V) (next : Point P V)

structure Writer (P V : Type) where
  revision : UInt64
  truncating : Bool
  stopped : Bool
  last : Option (SessionBody P V)
  point : Point P V
  took : Option (Taking P V)

inductive Reply (P V : Type) where
  | got (session : Session P V) (owned : Bool)
  | put (revision : UInt64)
  | released (released : Bool)

namespace Writer

/-- The session is released only once the screen is written. -/
def finish (handingOff written : Bool) : Point P V :=
  if handingOff then if written then .releasing else .telling (.handedOff false) .idle else .idle

def write (w : Writer P V) (body : SessionBody P V) (mark : Option (Mark P V)) (handingOff : Bool) : Writer P V :=
  if w.stopped then { w with point := finish handingOff false }
  else if w.truncating then { w with point := .putting body.degradeForSize none handingOff }
  else { w with point := .putting body mark handingOff }

def order (w : Writer P V) : SessionOrder P V → Writer P V
  | .ask => { w with point := .asking }
  | .write body mark => w.write body mark false
  | .handoff body mark => w.write body mark true

def asked (w : Writer P V) (session : Session P V) (owned : Bool) : Writer P V :=
  if owned then
    let orphans := orphansOf (w.last.getD .empty) session.read
    let taking : Taking P V := ⟨session.read, w.last, false⟩
    { w with
      revision := session.revision
      stopped := false
      took := some taking
      point := .telling (.owner session.revision orphans taking) .idle }
  else { w with point := .idle }

/-- The answer to a put: written, or what its refusal asks for. -/
def wrote (w : Writer P V) (body : SessionBody P V) (handingOff : Bool) : Except Error UInt64 → Writer P V
  | .ok revision => { w with revision := revision, last := some body, point := finish handingOff true }
  | .error .conflict => { w with point := .rereading body handingOff }
  | .error .limitExceeded =>
    if w.truncating then { w with stopped := true, point := finish handingOff false }
    else { w with truncating := true, point := .telling .tooLarge (.trimmed body.degradeForSize handingOff) }
  | .error .permissionDenied | .error .cancelled =>
    { w with stopped := true, point := .telling .released (finish handingOff false) }
  | .error _ => { w with point := .telling (.retry fun _ => none) (finish handingOff false) }

def reread (w : Writer P V) (body : SessionBody P V) (handingOff : Bool) (session : Session P V) : Writer P V :=
  { w with
    revision := session.revision
    point := .retrying body (orphansOf body session.read) handingOff }

/-- One retry, and only one. -/
def retried (w : Writer P V) (body : SessionBody P V) (orphans : Layout.SlotId → Option (SlotState V))
    (handingOff : Bool) : Except Error UInt64 → Writer P V
  | .ok revision =>
    { w with
      revision := revision
      last := some (body.withOrphans orphans)
      point := .telling (.retry orphans) (finish handingOff true) }
  | .error _ => { w with point := .telling (.retry orphans) (finish handingOff false) }

def wroteTrimmed (w : Writer P V) (handingOff : Bool) : Except Error UInt64 → Writer P V
  | .ok revision => { w with revision := revision, point := finish handingOff true }
  | .error _ => { w with stopped := true, point := finish handingOff false }

def releasedForHandoff (w : Writer P V) (released : Bool) : Writer P V :=
  { w with stopped := w.stopped || released, point := .telling (.handedOff released) .idle }

/-- What the writer does with the answer to the call it waits for. -/
def answer (w : Writer P V) : Except Error (Reply P V) → Writer P V
  | .ok (.got session owned) =>
    match w.point with
    | .asking => w.asked session owned
    | .rereading body handingOff => w.reread body handingOff session
    | _ => w
  | .ok (.put revision) =>
    match w.point with
    | .putting body _ handingOff => w.wrote body handingOff (.ok revision)
    | .retrying body orphans handingOff => w.retried body orphans handingOff (.ok revision)
    | .trimmed _ handingOff => w.wroteTrimmed handingOff (.ok revision)
    | _ => w
  | .ok (.released released) => w.releasedForHandoff released
  | .error e =>
    match w.point with
    | .asking => { w with point := .idle }
    | .putting body _ handingOff => w.wrote body handingOff (.error e)
    | .rereading _ handingOff => { w with point := .telling (.retry fun _ => none) (finish handingOff false) }
    | .retrying body orphans handingOff => w.retried body orphans handingOff (.error e)
    | .trimmed _ handingOff => w.wroteTrimmed handingOff (.error e)
    | .releasing => w.releasedForHandoff false
    | .idle | .telling .. => w

end Writer

/-- A frontend: the screen and the writer, with the two channels between them. -/
structure Front (P V : Type) where
  app : App P V
  policy : PushPolicy P V
  orders : List (SessionOrder P V)
  notices : List (SessionNotice P V)
  writer : Writer P V
  conn : Option Nat
  started : Bool

def ordersRoom : Nat := 1
def noticesRoom : Nat := 4

namespace Front

def push (f : Front P V) (order : SessionOrder P V) : Front P V := { f with orders := f.orders ++ [order] }

/-- What the screen has of the session from `restore_session` on. -/
def restored (f : Front P V) (panels : Layout.Node P → Layout.Node P) (conn : Nat) (session : Session P V)
    (owned : Bool) : Front P V :=
  let app := { f.app with detached := !owned, revision := session.revision, mark := none }
  if session.revision = 0 then
    { f with app := app, writer := ⟨session.revision, false, false, none, .idle, none⟩, conn := some conn, started := true }
  else
    let app := app.applySessionValue panels session
    let taking : Option (Taking P V) := if owned then some ⟨session.read, none, true⟩ else none
    { f with
      app := { app with mark := taking.map fun t => ⟨t, fun id => id ∈ app.layout.slotIds, fun k => k = app.sessionKey⟩ }
      writer := ⟨session.revision, false, false, none, .idle, taking⟩
      conn := some conn
      started := true }

/-- The layout and the panes change as the reader works. -/
def screened (f : Front P V) (layout : Layout.Node P) (panes : Layout.SlotId → Option (SlotState V)) : Front P V :=
  { f with app := { f.app with
    layout := layout
    panes := panes
    mark := f.app.mark.map fun m => { m with slots := m.slots ∪ fun id => id ∈ layout.slotIds } } }

/-- Another profile: the screen of now is mounted again under its key. -/
def switched (f : Front P V) (panels : Layout.Node P → Layout.Node P) (key : Str) : Front P V :=
  let outgoing := f.app.sessionBodyWithMarks false
  let app := { f.app with sessionKey := key }.applySession panels outgoing
  { f with app := { app with
    mark := app.mark.map fun m =>
      { m with slots := m.slots ∪ (fun id => id ∈ app.layout.slotIds), keys := m.keys ∪ fun k => k = key } } }

/-- A tick that captures nothing. -/
def ticked (f : Front P V) (blocked : Bool) : Front P V :=
  let step := f.policy.tick f.app.detached blocked
  let f := { f with policy := step.2 }
  if step.1 = .ask && f.orders.length < ordersRoom then f.push .ask else f

/-- A tick that captures the screen. With the channel full the body is not counted as sent. -/
def captured [DecidableEq V] (f : Front P V) (nowMs : Nat) : Front P V :=
  let prepared := f.policy.prepare (f.app.sessionBodyWithMarks false) f.app.layout.slotIds nowMs
  let app := { f.app with touched := fun id => if prepared.2.contains id then some nowMs else f.app.touched id }
  if f.orders.length < ordersRoom then
    { f.push (.write prepared.1 f.app.mark) with app := app, policy := f.policy.sent prepared.1 }
  else { f with app := app }

def handedOff (f : Front P V) : Front P V :=
  if f.orders.length < ordersRoom then
    f.push (.handoff (f.app.sessionBodyWithMarks true)
      (f.app.mark.map fun m => { m with keys := m.keys ∪ fun k => k = windowLayoutKey f.app.sessionKey }))
  else f

/-- One notice of the writer, in `drain_notices`. -/
def heard (f : Front P V) : SessionNotice P V → Front P V
  | .tooLarge => f
  | .retry orphans =>
    { f with
      app := { f.app.adoptSessionOrphans orphans with
        mark := f.app.mark.map fun m => { m with slots := m.slots ∪ fun id => (orphans id).isSome } }
      policy := f.policy.resend }
  | .owner revision orphans taking =>
    { f with app := { f.app.adoptSessionOrphans orphans with
      detached := false
      revision := revision
      mark := some ⟨taking, fun id => id ∈ f.app.layout.slotIds, fun k => k = f.app.sessionKey⟩ } }
  | .released => { f with app := { f.app with detached := true }, policy := f.policy.askSoon }
  | .handedOff released => if released then { f with app := { f.app with detached := true } } else f

end Front

/-- Serves the call a writer waits for. -/
def Daemon.serve (bytes : Value P V → Nat) (d : Daemon P V) (conn : Nat) (w : Writer P V) :
    Except Error (Reply P V) × Daemon P V :=
  match w.point with
  | .asking | .rereading .. =>
    let got := d.handleSessionGet conn
    (.ok (.got got.1.1 got.1.2), got.2)
  | .putting body _ _ | .trimmed body _ =>
    let put := d.handleSessionPut bytes conn schemaVersion w.revision (.body body)
    (put.1.map .put, put.2)
  | .retrying body orphans _ =>
    let put := d.handleSessionPut bytes conn schemaVersion w.revision (.body (body.withOrphans orphans))
    (put.1.map .put, put.2)
  | .releasing =>
    let released := d.handleSessionRelease conn
    (.ok (.released released.1), released.2)
  | .idle | .telling .. => (.error .other, d)

def Point.calls : Point P V → Bool
  | .idle | .telling .. => false
  | _ => true

/-- An accepted put: who was the owner, the session before and after, the body the screen sent
if it is a retry, and what the writer and the screen had taken over. -/
structure Put (P V : Type) where
  conn : Nat
  owner : Option Nat
  before : Session P V
  after : Session P V
  own : Option (SessionBody P V)
  took : Option (Taking P V)
  mark : Option (Mark P V)

/-- The put that a served call was, if it was accepted. -/
def Put.of (d d' : Daemon P V) (conn : Nat) (w : Writer P V) : Except Error (Reply P V) → Option (Put P V)
  | .ok (.put _) =>
    let put : Put P V := ⟨conn, d.store.owner, d.store.session, d'.store.session, none, w.took, none⟩
    match w.point with
    | .putting _ mark _ => some { put with mark := mark }
    | .retrying body _ _ => some { put with own := some body }
    | _ => some put
  | _ => none

structure World (ι P V : Type) where
  daemon : Daemon P V
  fronts : ι → Front P V
  nextConn : Nat

variable {ι : Type} [DecidableEq ι]

def World.set (w : World ι P V) (i : ι) (f : Front P V) : World ι P V :=
  { w with fronts := Function.update w.fronts i f }

/-- The frontend after a call, of which `put` was accepted. -/
def Front.called (f : Front P V) (reply : Except Error (Reply P V)) (put : Option (Put P V)) : Front P V :=
  let w := f.writer.answer reply
  { f with writer := { w with took := if put.isSome then none else w.took } }

namespace World

def starts (w : World ι P V) (i : ι) (panels : Layout.Node P → Layout.Node P) : World ι P V :=
  let got := w.daemon.handleSessionGet w.nextConn
  ⟨got.2, Function.update w.fronts i ((w.fronts i).restored panels w.nextConn got.1.1 got.1.2), w.nextConn + 1⟩

/-- The put that is accepted when the call of `i` is served. -/
def put (bytes : Value P V → Nat) (w : World ι P V) (i : ι) (conn : Nat) : Option (Put P V) :=
  let served := w.daemon.serve bytes conn (w.fronts i).writer
  Put.of w.daemon served.2 conn (w.fronts i).writer served.1

def calls (bytes : Value P V → Nat) (w : World ι P V) (i : ι) (conn : Nat) (reply : Except Error (Reply P V)) :
    World ι P V :=
  ⟨(w.daemon.serve bytes conn (w.fronts i).writer).2,
    Function.update w.fronts i ((w.fronts i).called reply (w.put bytes i conn)), w.nextConn⟩

end World

/-- One step of the daemon or of one frontend, with the put it accepted. -/
inductive Step [DecidableEq V] (bytes : Value P V → Nat) (w : World ι P V) :
    Option (Put P V) → World ι P V → Prop
  | start (i : ι) (panels : Layout.Node P → Layout.Node P) (off : (w.fronts i).started = false) :
    Step bytes w none (w.starts i panels)
  | startBlind (i : ι) (off : (w.fronts i).started = false) :
    Step bytes w none (w.set i
      { w.fronts i with writer := ⟨0, false, false, none, .idle, none⟩, started := true })
  | screen (i : ι) (layout : Layout.Node P) (panes : Layout.SlotId → Option (SlotState V)) :
    Step bytes w none (w.set i ((w.fronts i).screened layout panes))
  | profile (i : ι) (panels : Layout.Node P → Layout.Node P) (key : Str) :
    Step bytes w none (w.set i ((w.fronts i).switched panels key))
  | tick (i : ι) (blocked : Bool) (on : (w.fronts i).started)
      (due : ((w.fronts i).policy.tick (w.fronts i).app.detached blocked).1 ≠ .capture) :
    Step bytes w none (w.set i ((w.fronts i).ticked blocked))
  | capture (i : ι) (blocked : Bool) (nowMs : Nat) (on : (w.fronts i).started)
      (due : ((w.fronts i).policy.tick (w.fronts i).app.detached blocked).1 = .capture)
      (changed : (w.fronts i).policy.last ≠ some ((w.fronts i).app.sessionBodyWithMarks false)) :
    Step bytes w none (w.set i ((w.fronts i).captured nowMs))
  | handoff (i : ι) (on : (w.fronts i).started) : Step bytes w none (w.set i (w.fronts i).handedOff)
  | reclaim (i : ι) : Step bytes w none (w.set i { w.fronts i with policy := (w.fronts i).policy.askSoon })
  | drain (i : ι) (notice : SessionNotice P V) (rest : List (SessionNotice P V))
      (told : (w.fronts i).notices = notice :: rest) :
    Step bytes w none (w.set i (({ w.fronts i with notices := rest } : Front P V).heard notice))
  | take (i : ι) (order : SessionOrder P V) (rest : List (SessionOrder P V))
      (idle : (w.fronts i).writer.point = .idle) (sent : (w.fronts i).orders = order :: rest) :
    Step bytes w none (w.set i { w.fronts i with orders := rest, writer := (w.fronts i).writer.order order })
  | tell (i : ι) (notice : SessionNotice P V) (next : Point P V)
      (telling : (w.fronts i).writer.point = .telling notice next) (room : (w.fronts i).notices.length < noticesRoom) :
    Step bytes w none (w.set i { w.fronts i with
      notices := (w.fronts i).notices ++ [notice]
      writer := { (w.fronts i).writer with point := next } })
  /-- A call is served; its answer may be lost on the way. -/
  | call (i : ι) (conn : Nat) (reply : Except Error (Reply P V)) (connected : (w.fronts i).conn = some conn)
      (waits : (w.fronts i).writer.point.calls)
      (heard : reply = (w.daemon.serve bytes conn (w.fronts i).writer).1 ∨ reply = .error .other) :
    Step bytes w (w.put bytes i conn) (w.calls bytes i conn reply)
  /-- A call that never arrives. -/
  | fail (i : ι) (waits : (w.fronts i).writer.point.calls) :
    Step bytes w none (w.set i ((w.fronts i).called (.error .other) none))
  | connect (i : ι) (alone : (w.fronts i).conn = none) (on : (w.fronts i).started) :
    Step bytes w none ⟨w.daemon, Function.update w.fronts i { w.fronts i with conn := some w.nextConn }, w.nextConn + 1⟩
  | disconnect (i : ι) (conn : Nat) (connected : (w.fronts i).conn = some conn) :
    Step bytes w none ⟨{ w.daemon with store := w.daemon.store.release conn },
      Function.update w.fronts i
        { w.fronts i with conn := none, writer := { (w.fronts i).writer with took := none } }, w.nextConn⟩
  | close : Step bytes w none { w with daemon := { w.daemon with store := w.daemon.store.closed } }
  | lateLock (disk : Session P V) (without : w.daemon.persists = false) :
    Step bytes w none { w with daemon := w.daemon.lateLock disk }

inductive Run [DecidableEq V] (bytes : Value P V → Nat) (w : World ι P V) : List (Put P V) → World ι P V → Prop
  | refl : Run bytes w [] w
  | step {puts put w' w''} : Run bytes w puts w' → Step bytes w' put w'' → Run bytes w (puts ++ put.toList) w''

/-- No frontend has started, and nobody owns the session. -/
def World.Fresh (w : World ι P V) : Prop :=
  w.daemon.store.owner = none ∧ ∀ i, (w.fronts i).started = false ∧ (w.fronts i).conn = none ∧
    (w.fronts i).orders = [] ∧ (w.fronts i).notices = [] ∧ (w.fronts i).writer.point = .idle ∧
    (w.fronts i).writer.took = none ∧ (w.fronts i).app.mark = none

end Norte.UiSession
