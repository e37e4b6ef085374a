import Norte.SessionWriter

/-! Frontends that hand the saved screen to each other: the revision goes up, only the owner
writes, and what one of them saved of the slots another does not show is still there after the
other takes over. The layouts a frontend carries since its start are kept only by one that
owned the session from there on. -/
namespace Norte.UiSession

variable {P V : Type}

/-- Slots and layouts that hold what was read, less what was shown or known. -/
def Mark.Holds (m : Mark P V) (slots : Layout.SlotId → Option (SlotState V)) (layouts : Str → Option (Layout.Node P)) :
    Prop :=
  ∀ b, m.taking.stored = some b →
    (∀ id v, b.slots id = some v → id ∉ m.slots → (∀ known, m.taking.known = some known → known.slots id = none) →
      slots id = some v) ∧
    (m.taking.whole → ∀ k n, b.layouts k = some n → k ∉ m.keys → layouts k = some n)

/-- Later slots and layouts, under a mark that leaves out more. -/
theorem Mark.Holds.later {m m' : Mark P V} {slots slots' : Layout.SlotId → Option (SlotState V)}
    {layouts layouts' : Str → Option (Layout.Node P)} (holds : m.Holds slots layouts) (same : m'.taking = m.taking)
    (slotsGrow : m.slots ⊆ m'.slots) (keysGrow : m.keys ⊆ m'.keys)
    (keptSlots : ∀ id v, slots id = some v → id ∉ m'.slots → slots' id = some v)
    (keptLayouts : ∀ k n, layouts k = some n → k ∉ m'.keys → layouts' k = some n) : m'.Holds slots' layouts' := by
  intro b stored
  rw [same] at stored
  obtain ⟨ofSlots, ofLayouts⟩ := holds b stored
  constructor
  · intro id v found fresh unknown
    rw [same] at unknown
    exact keptSlots id v (ofSlots id v found (fun shown => fresh (slotsGrow shown)) unknown) fresh
  · intro whole k n found fresh
    rw [same] at whole
    exact keptLayouts k n (ofLayouts whole k n found fun shown => fresh (keysGrow shown)) fresh

/-- What the notice of a takeover brings the screen. -/
def SessionNotice.Told : SessionNotice P V → Prop
  | .owner _ orphans t => t.whole = false ∧ ∀ b, t.stored = some b → ∀ id v, b.slots id = some v →
      (∀ known, t.known = some known → known.slots id = none) → orphans id = some v
  | _ => True

def SessionOrder.Holds : SessionOrder P V → Prop
  | .write b mark | .handoff b mark => ∀ m, mark = some m → m.Holds b.slots b.layouts
  | .ask => True

/-- What holds where the writer waits. -/
def Point.Ok (d : Daemon P V) (conn : Option Nat) (took : Option (Taking P V)) : Point P V → Prop
  | .putting b mark _ => ∀ m, mark = some m → m.Holds b.slots b.layouts
  | .rereading .. => took = none ∧ d.persists
  | .retrying own orphans _ => took = none ∧ d.persists ∧
      ∀ c, conn = some c → d.store.owner = some c → orphans = orphansOf own d.store.session.read
  | .releasing => took = none
  | .telling notice next => notice.Told ∧ next.Ok d conn took
  | .idle | .asking | .trimmed .. => True

/-- A takeover lasts while nobody else can write: the document is the one that was read. -/
structure Front.Ok (d : Daemon P V) (f : Front P V) : Prop where
  took : ∀ t, f.writer.took = some t → ∃ c, f.conn = some c ∧ d.store.owner = some c ∧ d.persists ∧
    t.stored = d.store.session.read ∧ f.writer.revision = d.store.session.revision
  screen : ∀ m, f.app.mark = some m → m.Holds f.app.orphans f.app.otherLayouts ∧
    (∀ id, id ∈ f.app.layout.slotIds → id ∈ m.slots) ∧ f.app.sessionKey ∈ m.keys
  orders : ∀ o ∈ f.orders, o.Holds
  notices : ∀ n ∈ f.notices, n.Told
  point : f.writer.point.Ok d f.conn f.writer.took

/-- A change of the daemon that leaves the owner's connection `c` alone. -/
structure Daemon.Aside (d d' : Daemon P V) (c : Nat) : Prop where
  owner : d'.store.owner = some c ↔ d.store.owner = some c
  session : d.store.owner = some c → d'.store.session = d.store.session

theorem Point.Ok.aside {d d' : Daemon P V} {conn : Option Nat} {took : Option (Taking P V)} {p : Point P V}
    (ok : p.Ok d conn took) (aside : ∀ c, conn = some c → d.Aside d' c) (writes : d.persists → d'.persists) :
    p.Ok d' conn took := by
  induction p with
  | idle | asking | putting | trimmed | releasing => exact ok
  | rereading => exact ⟨ok.1, writes ok.2⟩
  | retrying own orphans handingOff =>
    obtain ⟨none_, persists, same⟩ := ok
    refine ⟨none_, writes persists, fun c own' owner => ?_⟩
    have before := (aside c own').owner.mp owner
    rw [(aside c own').session before]
    exact same c own' before
  | telling notice next below => exact ⟨ok.1, below ok.2⟩

theorem Front.Ok.aside {d d' : Daemon P V} {f : Front P V} (ok : f.Ok d) (aside : ∀ c, f.conn = some c → d.Aside d' c)
    (writes : d.persists → d'.persists) : f.Ok d' where
  took := by
    intro t named
    obtain ⟨c, own, owner, persists, stored, revision⟩ := ok.took t named
    have same := (aside c own).session owner
    exact ⟨c, own, (aside c own).owner.mpr owner, writes persists, by rw [same, stored], by rw [same, revision]⟩
  screen := ok.screen
  orders := ok.orders
  notices := ok.notices
  point := ok.point.aside aside writes

variable {ι : Type} [DecidableEq ι]

structure World.Ok (w : World ι P V) : Prop where
  apart : ∀ i j c, (w.fronts i).conn = some c → (w.fronts j).conn = some c → i = j
  conns : ∀ i c, (w.fronts i).conn = some c → c < w.nextConn
  owner : ∀ c, w.daemon.store.owner = some c → c < w.nextConn
  fronts : ∀ i, (w.fronts i).Ok w.daemon

/-- One frontend moves, on its connection or a new one, and the others are left alone. -/
theorem World.Ok.moves {w : World ι P V} (ok : w.Ok) {i : ι} {d : Daemon P V} {f : Front P V} {next : Nat}
    (later : w.nextConn ≤ next)
    (conn : ∀ c, f.conn = some c → (w.fronts i).conn = some c ∨ c = w.nextConn ∧ w.nextConn < next)
    (owner : ∀ c, d.store.owner = some c → c < next)
    (aside : ∀ c, (w.fronts i).conn ≠ some c → c < w.nextConn → w.daemon.Aside d c)
    (writes : w.daemon.persists → d.persists) (own : f.Ok d) :
    World.Ok (⟨d, Function.update w.fronts i f, next⟩ : World ι P V) where
  apart := by
    intro j k c first second
    have of (j : ι) (named : (Function.update w.fronts i f j).conn = some c) :
        (w.fronts j).conn = some c ∨ j = i ∧ c = w.nextConn := by
      by_cases same : j = i
      · subst same
        rw [Function.update_self] at named
        exact (conn c named).imp_right fun fresh => ⟨rfl, fresh.1⟩
      · rw [Function.update_of_ne same] at named
        exact .inl named
    rcases of j first with old | ⟨rfl, rfl⟩
    · rcases of k second with old' | ⟨rfl, rfl⟩
      · exact ok.apart j k c old old'
      · exact absurd (ok.conns j _ old) (Nat.lt_irrefl _)
    · rcases of k second with old' | ⟨rfl, _⟩
      · exact absurd (ok.conns k _ old') (Nat.lt_irrefl _)
      · rfl
  conns := by
    intro j c named
    dsimp only at named ⊢
    by_cases same : j = i
    · subst same
      rw [Function.update_self] at named
      rcases conn c named with old | ⟨rfl, grows⟩
      · exact lt_of_lt_of_le (ok.conns j c old) later
      · exact grows
    · rw [Function.update_of_ne same] at named
      exact lt_of_lt_of_le (ok.conns j c named) later
  owner := owner
  fronts := by
    intro j
    dsimp only
    by_cases same : j = i
    · subst same
      rw [Function.update_self]
      exact own
    · rw [Function.update_of_ne same]
      refine (ok.fronts j).aside (fun c named => aside c ?_ (ok.conns j c named)) writes
      exact fun other => same (ok.apart j i c named other)

theorem Daemon.Aside.refl (d : Daemon P V) (c : Nat) : d.Aside d c := ⟨Iff.rfl, fun _ => rfl⟩

/-- A frontend moves on its own. -/
theorem World.Ok.set {w : World ι P V} (ok : w.Ok) {i : ι} {f : Front P V} (conn : f.conn = (w.fronts i).conn)
    (own : f.Ok w.daemon) : (w.set i f).Ok :=
  ok.moves (Nat.le_refl _) (fun _ named => .inl (conn ▸ named)) ok.owner (fun _ _ _ => .refl _ _) id own

/-! What the screen does on its own. -/

section Screen

variable {d : Daemon P V} {f : Front P V}

theorem Front.Ok.screened (ok : f.Ok d) (layout : Layout.Node P) (panes : Layout.SlotId → Option (SlotState V)) :
    (f.screened layout panes).Ok d := by
  refine { ok with screen := ?_ }
  intro m' named
  obtain ⟨m, old, rfl⟩ := Option.map_eq_some_iff.mp named
  obtain ⟨holds, _, shown⟩ := ok.screen m old
  exact ⟨holds.later rfl Set.subset_union_left (le_refl _) (fun _ _ found _ => found) (fun _ _ found _ => found),
    fun id placed => .inr placed, shown⟩

/-- The body of a screen: slots it does not place are carried. -/
theorem App.body_slots (a : App P V) (marks : Bool) {id : Layout.SlotId} (dead : id ∉ a.layout.slotIds) :
    (a.sessionBodyWithMarks marks).slots id = a.orphans id := if_neg dead

theorem App.body_layouts (a : App P V) {k : Str} (other : k ≠ a.sessionKey) :
    (a.sessionBodyWithMarks false).layouts k = a.otherLayouts k := Function.update_of_ne other _ _

/-- The body of a screen holds what the screen holds. -/
theorem App.body_holds {a : App P V} {m : Mark P V} (holds : m.Holds a.orphans a.otherLayouts)
    (placed : ∀ id, id ∈ a.layout.slotIds → id ∈ m.slots) (shown : a.sessionKey ∈ m.keys) :
    m.Holds (a.sessionBodyWithMarks false).slots (a.sessionBodyWithMarks false).layouts := by
  apply holds.later rfl (le_refl _) (le_refl _)
  · intro id v found fresh
    rw [a.body_slots false fun live => fresh (placed id live), found]
  · intro k n found fresh
    rw [a.body_layouts fun same => fresh (by rw [same]; exact shown), found]

theorem Front.Ok.switched (ok : f.Ok d) (panels : Layout.Node P → Layout.Node P) (key : Str) :
    (f.switched panels key).Ok d := by
  refine { ok with screen := ?_ }
  intro m' named
  obtain ⟨m, old, rfl⟩ := Option.map_eq_some_iff.mp named
  obtain ⟨holds, placed, shown⟩ := ok.screen m old
  refine ⟨(App.body_holds holds placed shown).later rfl Set.subset_union_left Set.subset_union_left ?_ ?_,
    fun id live => .inr live, .inr rfl⟩
  · intro id v found fresh
    exact (if_neg fun live => fresh (.inr live)).trans found
  · intro k n found fresh
    exact (Function.update_of_ne (fun same => fresh (.inr same)) _ _).trans found

theorem Front.Ok.push {order : SessionOrder P V} (ok : f.Ok d) (holds : order.Holds) : (f.push order).Ok d := by
  refine { ok with orders := ?_ }
  intro o member
  rcases List.mem_append.mp member with old | new
  · exact ok.orders o old
  · rw [List.mem_singleton.mp new]
    exact holds

theorem Front.Ok.ticked (ok : f.Ok d) (blocked : Bool) : (f.ticked blocked).Ok d := by
  have same : ({ f with policy := (f.policy.tick f.app.detached blocked).2 } : Front P V).Ok d := { ok with }
  unfold Front.ticked
  dsimp only
  split
  · exact same.push trivial
  · exact same

theorem Front.Ok.captured [DecidableEq V] (ok : f.Ok d) (nowMs : Nat) : (f.captured nowMs).Ok d := by
  unfold Front.captured
  dsimp only
  split
  · refine { ok with screen := ok.screen, orders := (ok.push ?_).orders }
    intro m named
    obtain ⟨holds, placed, shown⟩ := ok.screen m named
    apply (App.body_holds holds placed shown).later rfl (le_refl _) (le_refl _) _ fun _ _ found _ => found
    intro id v found fresh
    have dead : ((f.app.layout.slotIds.filter
        (f.policy.moved (f.app.sessionBodyWithMarks false))).contains id) = false := by
      simp only [List.contains_eq_mem, decide_eq_false_iff_not]
      exact fun live => fresh (placed id (List.mem_filter.mp live).1)
    simp only [PushPolicy.prepare, dead, Bool.false_eq_true, if_false, found]
  · exact { ok with screen := ok.screen }

theorem Front.Ok.handedOff (ok : f.Ok d) : f.handedOff.Ok d := by
  unfold Front.handedOff
  split
  · apply ok.push
    intro m' named
    obtain ⟨m, old, rfl⟩ := Option.map_eq_some_iff.mp named
    obtain ⟨holds, placed, shown⟩ := ok.screen m old
    refine holds.later rfl (le_refl _) Set.subset_union_left ?_ ?_
    · intro id v found fresh
      rw [f.app.body_slots true fun live => fresh (placed id live), found]
    · intro k n found fresh
      have own : k ≠ f.app.sessionKey := fun same => fresh (.inl (by rw [same]; exact shown))
      exact (Function.update_of_ne (fun same => fresh (.inr same)) _ _).trans ((f.app.body_layouts own).trans found)
  · exact ok

/-- Adopted slots lie over the carried ones. -/
theorem App.adopt_dead (a : App P V) {foreign : Layout.SlotId → Option (SlotState V)} {id : Layout.SlotId}
    {v : SlotState V} (dead : id ∉ a.layout.slotIds) (brought : foreign id = some v) :
    (a.adoptSessionOrphans foreign).orphans id = some v := by
  simp [App.adoptSessionOrphans, insertAll, dead, brought]

theorem App.adopt_absent (a : App P V) {foreign : Layout.SlotId → Option (SlotState V)} {id : Layout.SlotId}
    (absent : foreign id = none) : (a.adoptSessionOrphans foreign).orphans id = a.orphans id := by
  simp [App.adoptSessionOrphans, insertAll, absent]

theorem Front.Ok.heard {notice : SessionNotice P V} (ok : f.Ok d) (told : notice.Told) : (f.heard notice).Ok d := by
  cases notice with
  | tooLarge => exact ok
  | released => exact { ok with screen := ok.screen }
  | handedOff released =>
    unfold Front.heard
    dsimp only
    split
    · exact { ok with screen := ok.screen }
    · exact ok
  | retry orphans =>
    refine { ok with screen := ?_ }
    intro m' named
    obtain ⟨m, old, rfl⟩ := Option.map_eq_some_iff.mp named
    obtain ⟨holds, placed, shown⟩ := ok.screen m old
    refine ⟨holds.later rfl Set.subset_union_left (le_refl _) ?_ fun _ _ found _ => found,
      fun id live => .inl (placed id live), shown⟩
    intro id v found fresh
    have none_ : orphans id = none := Option.not_isSome_iff_eq_none.mp fun some_ => fresh (.inr some_)
    exact (f.app.adopt_absent none_).trans found
  | owner revision orphans t =>
    refine { ok with screen := ?_ }
    intro m named
    obtain rfl := Option.some.inj named
    obtain ⟨partly, brought⟩ := told
    refine ⟨?_, fun id live => live, rfl⟩
    intro b stored
    refine ⟨?_, fun whole => absurd (partly.symm.trans whole) Bool.false_ne_true⟩
    intro id v found fresh unknown
    exact f.app.adopt_dead fresh (brought b stored id v found unknown)

end Screen

/-! The calls of the writer. -/

section Calls

variable {d d' : Daemon P V} {f : Front P V} {w : Writer P V}

theorem finish_ok {conn : Option Nat} {took : Option (Taking P V)} (handingOff : Bool) {written : Bool}
    (free : written → took = none) : (Writer.finish (P := P) (V := V) handingOff written).Ok d conn took := by
  unfold Writer.finish
  split
  · split
    · rename_i put
      exact free put
    · exact ⟨trivial, trivial⟩
  · trivial

theorem Front.Ok.take {order : SessionOrder P V} (ok : f.Ok d) (holds : order.Holds) :
    ({ f with writer := f.writer.order order } : Front P V).Ok d := by
  have writing (b : SessionBody P V) (mark : Option (Mark P V)) (handingOff : Bool)
      (holds : ∀ m, mark = some m → m.Holds b.slots b.layouts) :
      ({ f with writer := f.writer.write b mark handingOff } : Front P V).Ok d := by
    unfold Writer.write
    split
    · exact { ok with took := ok.took, point := finish_ok handingOff (by simp) }
    · split
      · exact { ok with took := ok.took, point := fun m named => (by cases named) }
      · exact { ok with took := ok.took, point := holds }
  cases order with
  | ask => exact { ok with took := ok.took, point := trivial }
  | write b mark => exact writing b mark false holds
  | handoff b mark => exact writing b mark true holds

theorem Front.Ok.tell {notice : SessionNotice P V} {next : Point P V} (ok : f.Ok d)
    (telling : f.writer.point = .telling notice next) :
    ({ f with notices := f.notices ++ [notice], writer := { f.writer with point := next } } : Front P V).Ok d := by
  have waits := ok.point
  rw [telling] at waits
  refine { ok with took := ok.took, notices := ?_, point := waits.2 }
  intro n member
  rcases List.mem_append.mp member with old | new
  · exact ok.notices n old
  · rw [List.mem_singleton.mp new]
    exact waits.1

/-- A call that fails leaves the writer at peace, whatever became of the daemon. -/
theorem Writer.answer_error {conn : Option Nat} {took : Option (Taking P V)} (waits : w.point.calls) {e : Error}
    (stale : e = .conflict → took = none ∧ d.persists) :
    (w.answer (.error e)).point.Ok d conn took ∧ (w.answer (.error e)).took = w.took ∧
      (w.answer (.error e)).revision = w.revision := by
  have unwritten (handingOff : Bool) : (Writer.finish (P := P) (V := V) handingOff false).Ok d conn took :=
    finish_ok handingOff (by simp)
  unfold Writer.answer
  cases at_ : w.point with
  | idle => rw [at_] at waits; cases waits
  | telling => rw [at_] at waits; cases waits
  | asking => exact ⟨trivial, rfl, rfl⟩
  | rereading body handingOff => exact ⟨⟨trivial, unwritten handingOff⟩, rfl, rfl⟩
  | retrying body orphans handingOff => exact ⟨⟨trivial, unwritten handingOff⟩, rfl, rfl⟩
  | trimmed body handingOff => exact ⟨unwritten handingOff, rfl, rfl⟩
  | releasing => exact ⟨⟨trivial, trivial⟩, rfl, rfl⟩
  | putting body mark handingOff =>
    cases e with
    | conflict => exact ⟨stale rfl, rfl, rfl⟩
    | limitExceeded =>
      dsimp only [Writer.wrote]
      split
      · exact ⟨unwritten handingOff, rfl, rfl⟩
      · exact ⟨⟨trivial, trivial⟩, rfl, rfl⟩
    | permissionDenied | cancelled => exact ⟨⟨trivial, unwritten handingOff⟩, rfl, rfl⟩
    | unsupported | other => exact ⟨⟨trivial, unwritten handingOff⟩, rfl, rfl⟩

/-- A body that is written leaves no takeover pending. -/
theorem Writer.answer_put {conn : Option Nat} {revision : UInt64}
    (waits : (∃ b mark h, w.point = .putting b mark h) ∨ (∃ b o h, w.point = .retrying b o h) ∨
      ∃ b h, w.point = .trimmed b h) :
    (w.answer (.ok (.put revision))).point.Ok d conn none := by
  unfold Writer.answer
  rcases waits with ⟨b, mark, h, at_⟩ | ⟨b, o, h, at_⟩ | ⟨b, h, at_⟩
  · rw [at_]
    exact finish_ok h fun _ => rfl
  · rw [at_]
    exact ⟨trivial, finish_ok h fun _ => rfl⟩
  · rw [at_]
    exact finish_ok h fun _ => rfl

theorem Front.Ok.writer (ok : f.Ok d) {w : Writer P V}
    (took : ∀ t, w.took = some t → ∃ c, f.conn = some c ∧ d'.store.owner = some c ∧ d'.persists ∧
      t.stored = d'.store.session.read ∧ w.revision = d'.store.session.revision)
    (point : w.point.Ok d' f.conn w.took) : ({ f with writer := w } : Front P V).Ok d' :=
  { ok with took := took, point := point, screen := ok.screen }

/-- What a takeover promises of the put that ends it. -/
def Put.KeepsTakeover (p : Put P V) : Prop :=
  ∀ m, p.mark = some m → p.took = some m.taking → ∀ b, p.before.read = some b →
    ∃ a, p.after.read = some a ∧
      (∀ id v, b.slots id = some v → id ∉ m.slots →
        (∀ known, m.taking.known = some known → known.slots id = none) → a.slots id = some v) ∧
      (m.taking.whole → ∀ k n, b.layouts k = some n → k ∉ m.keys → a.layouts k = some n)

/-- What a retry promises of its put. -/
def Put.KeepsRetry (p : Put P V) : Prop :=
  ∀ own, p.own = some own → ∀ b, p.before.read = some b →
    ∃ a, p.after.read = some a ∧ ∀ id v, b.slots id = some v → own.slots id = none → a.slots id = some v

structure Put.Good (p : Put P V) : Prop where
  owner : p.owner = some p.conn
  revision : p.after.revision = saturatingSucc p.before.revision
  retry : p.KeepsRetry
  takeover : p.KeepsTakeover

theorem orphansOf_some {own b : SessionBody P V} {id : Layout.SlotId} {v : SlotState V} (found : b.slots id = some v)
    (fresh : own.slots id = none) : orphansOf own (some b) id = some v := by
  simp [orphansOf, foreignOrphans, found, fresh]

end Calls

section Served

variable {d : Daemon P V} {f : Front P V} {conn : Nat} {bytes : Value P V → Nat}

/-- What a served call may do to the daemon. -/
structure Daemon.Served (d d' : Daemon P V) (conn : Nat) : Prop where
  persists : d'.persists = d.persists
  owner : d'.store.owner = d.store.owner ∨ d'.store.owner = some conn ∨ d'.store.owner = none
  aside : ∀ c, c ≠ conn → d.Aside d' c
  revision : d.store.session.revision ≤ d'.store.session.revision

/-- The put of a served call, with the session it found and the one it left. -/
def Put.Between (put : Option (Put P V)) (d d' : Daemon P V) : Prop :=
  ∀ p, put = some p → p.Good ∧ p.before = d.store.session ∧ p.after = d'.store.session

/-- Everything a served call keeps. -/
structure Kept (bytes : Value P V → Nat) (d : Daemon P V) (f : Front P V) (conn : Nat) (reply : Except Error (Reply P V)) :
    Prop where
  served : d.Served (d.serve bytes conn f.writer).2 conn
  put : Put.Between (Put.of d (d.serve bytes conn f.writer).2 conn f.writer (d.serve bytes conn f.writer).1) d
    (d.serve bytes conn f.writer).2
  ok : (f.called reply (Put.of d (d.serve bytes conn f.writer).2 conn f.writer (d.serve bytes conn f.writer).1)).Ok
    (d.serve bytes conn f.writer).2

theorem Daemon.Served.refl (d : Daemon P V) (conn : Nat) : d.Served d conn :=
  ⟨rfl, .inl rfl, fun _ _ => .refl _ _, UInt64.le_refl _⟩

theorem Daemon.served_get (d : Daemon P V) (conn : Nat) : d.Served (d.handleSessionGet conn).2 conn := by
  obtain ⟨_, session, persists, owner, _⟩ := d.handleSessionGet_spec conn
  refine ⟨persists, owner.imp_right fun claimed => .inl claimed.2, ?_, session ▸ UInt64.le_refl _⟩
  intro c other
  refine ⟨?_, fun _ => session⟩
  rcases owner with same | ⟨free, claimed⟩
  · rw [same]
  · rw [claimed, free, Option.some.injEq]
    exact ⟨fun same => absurd same.symm other, fun absent => absurd absent (by simp)⟩

theorem Daemon.served_release (d : Daemon P V) (conn : Nat) : d.Served (d.handleSessionRelease conn).2 conn := by
  unfold Daemon.handleSessionRelease SessionStore.release
  by_cases mine : d.store.owner = some conn
  · rw [if_pos mine, if_pos mine]
    refine ⟨rfl, .inr (.inr rfl), ?_, UInt64.le_refl _⟩
    intro c other
    refine ⟨⟨fun absent => absurd absent (by simp), ?_⟩, fun _ => rfl⟩
    intro owner
    exact absurd (Option.some.inj (owner.symm.trans mine)) other
  · rw [if_neg mine]
    exact .refl d conn

theorem Front.called_some (f : Front P V) (reply : Except Error (Reply P V)) {put : Option (Put P V)}
    (written : put.isSome) :
    f.called reply put = { f with writer := { f.writer.answer reply with took := none } } := by
  cases put with
  | none => cases written
  | some p => rfl

/-- A call that is lost or never arrives: the answer is a failure. -/
theorem Front.Ok.lost {d' : Daemon P V} (ok : f.Ok d) (waits : f.writer.point.calls) {e : Error}
    (stale : e = .conflict → f.writer.took = none ∧ d'.persists)
    (took : ∀ t, f.writer.took = some t → ∃ c, f.conn = some c ∧ d'.store.owner = some c ∧ d'.persists ∧
      t.stored = d'.store.session.read ∧ f.writer.revision = d'.store.session.revision) :
    (f.called (.error e) none).Ok d' := by
  obtain ⟨point, same, revision⟩ := @Writer.answer_error P V d' f.writer f.conn _ waits e stale
  refine ok.writer ?_ ?_
  · intro t named
    rw [revision]
    exact took t (same.symm.trans named)
  · dsimp only [Option.isSome_none]
    rw [if_neg Bool.false_ne_true, same]
    exact point

/-- A get: a takeover begins where it is answered that the session is ours. -/
theorem Front.Ok.got (ok : f.Ok d) (own : f.conn = some conn)
    (at_ : f.writer.point = .asking ∨ ∃ body h, f.writer.point = .rereading body h) {reply : Except Error (Reply P V)}
    (heard : reply = .ok (.got (d.handleSessionGet conn).1.1 (d.handleSessionGet conn).1.2) ∨ reply = .error .other) :
    (f.called reply none).Ok (d.handleSessionGet conn).2 := by
  obtain ⟨read, session, persists, owner, owned⟩ := d.handleSessionGet_spec conn
  have took : ∀ t, f.writer.took = some t → ∃ c, f.conn = some c ∧
      (d.handleSessionGet conn).2.store.owner = some c ∧ (d.handleSessionGet conn).2.persists ∧
      t.stored = (d.handleSessionGet conn).2.store.session.read ∧
      f.writer.revision = (d.handleSessionGet conn).2.store.session.revision := by
    intro t named
    obtain ⟨c, own', mine, writes, stored, revision⟩ := ok.took t named
    rw [session, persists]
    rcases owner with same | ⟨free, _⟩
    · exact ⟨c, own', same.trans mine, writes, stored, revision⟩
    · cases free.symm.trans mine
  rcases heard with rfl | rfl
  · have waits := ok.point
    unfold Front.called Writer.answer
    rcases at_ with asking | ⟨body, h, rereading⟩
    · rw [asking]
      dsimp only [Writer.asked]
      split
      · rename_i ours
        obtain ⟨mine, writes⟩ := owned ours
        refine ok.writer ?_ ⟨⟨rfl, ?_⟩, trivial⟩
        · intro t named
          obtain rfl := Option.some.inj named
          rw [session, persists, read]
          exact ⟨conn, own, mine, writes, rfl, rfl⟩
        · intro b stored id v found unknown
          dsimp only at stored unknown ⊢
          rw [stored]
          apply orphansOf_some found
          cases known : f.writer.last with
          | none => rfl
          | some known' => exact unknown known' known
      · exact ok.writer took trivial
    · rw [rereading] at waits ⊢
      obtain ⟨free, writes⟩ := waits
      refine ok.writer (fun t named => ?_) ⟨free, by rw [persists, writes], ?_⟩
      · cases free.symm.trans named
      · intro c _ _
        rw [read, session]
  · have waits : f.writer.point.calls := by
      rcases at_ with asking | ⟨body, h, rereading⟩
      · rw [asking]
        rfl
      · rw [rereading]
        rfl
    exact ok.lost waits (by simp) took

/-- A release: nothing is pending. -/
theorem Front.Ok.letGo (ok : f.Ok d) (at_ : f.writer.point = .releasing) {reply : Except Error (Reply P V)}
    (heard : reply = .ok (.released (d.handleSessionRelease conn).1) ∨ reply = .error .other) :
    (f.called reply none).Ok (d.handleSessionRelease conn).2 := by
  have free := ok.point
  rw [at_] at free
  have none_ : f.writer.took = none := free
  rcases heard with rfl | rfl
  · refine ok.writer (fun t named => ?_) ⟨trivial, trivial⟩
    cases none_.symm.trans named
  · refine ok.lost (by rw [at_]; rfl) (by simp) fun t named => ?_
    cases none_.symm.trans named

/-- A put that went through: nothing the retry or the takeover promises is lost. -/
theorem Front.Ok.good (ok : f.Ok d) (own : f.conn = some conn) (mine : d.store.owner = some conn) {sent : SessionBody P V}
    {p : Put P V} (session : p.before = d.store.session)
    (next : p.after = ⟨schemaVersion, saturatingSucc d.store.session.revision, .body sent⟩)
    (owner : p.owner = d.store.owner ∧ p.conn = conn) (took : p.took = f.writer.took)
    (retry : ∀ body, p.own = some body → ∃ orphans h, f.writer.point = .retrying body orphans h ∧
      sent = body.withOrphans orphans)
    (mark : ∀ m, p.mark = some m → m.Holds sent.slots sent.layouts) : p.Good where
  owner := by rw [owner.1, owner.2, mine]
  revision := by rw [next, session]
  retry := by
    intro body named b read
    obtain ⟨orphans, h, at_, rfl⟩ := retry body named
    have waits := ok.point
    rw [at_] at waits
    refine ⟨body.withOrphans orphans, by rw [next]; rfl, ?_⟩
    intro id v found fresh
    rw [waits.2.2 conn own mine, ← session, read]
    simp [SessionBody.withOrphans, insertAll, orphansOf_some found fresh]
  takeover := by
    intro m marked same b read
    obtain ⟨_, _, _, _, stored, _⟩ := ok.took m.taking (took.symm.trans same)
    rw [← session, read] at stored
    exact ⟨sent, by rw [next]; rfl, mark m marked b stored⟩

/-- A put by the writer: accepted, and then it is good, or refused. -/
theorem Front.Ok.puts (ok : f.Ok d) (own : f.conn = some conn) {sent : SessionBody P V}
    (at_ : (∃ mark h, f.writer.point = .putting sent mark h) ∨
      (∃ body orphans h, f.writer.point = .retrying body orphans h ∧ sent = body.withOrphans orphans) ∨
      ∃ h, f.writer.point = .trimmed sent h) {reply : Except Error (Reply P V)}
    (heard : reply = (d.serve bytes conn f.writer).1 ∨ reply = .error .other) : Kept bytes d f conn reply := by
  have waits : f.writer.point.calls := by
    rcases at_ with ⟨_, _, at_⟩ | ⟨_, _, _, at_, _⟩ | ⟨_, at_⟩ <;> rw [at_] <;> rfl
  have served : d.serve bytes conn f.writer =
      ((d.handleSessionPut bytes conn schemaVersion f.writer.revision (.body sent)).1.map .put,
        (d.handleSessionPut bytes conn schemaVersion f.writer.revision (.body sent)).2) := by
    unfold Daemon.serve
    rcases at_ with ⟨mark, h, at_⟩ | ⟨body, orphans, h, at_, rfl⟩ | ⟨h, at_⟩ <;> rw [at_]
  rcases d.handleSessionPut_spec bytes conn schemaVersion f.writer.revision (.body sent) with
    ⟨mine, writes, current, accepted⟩ | ⟨e, refused, stale⟩
  · rw [accepted] at served
    rw [served] at heard
    constructor
    · rw [served]
      refine ⟨rfl, .inl rfl, fun c other => ⟨Iff.rfl, fun owner => ?_⟩, le_saturatingSucc _⟩
      exact absurd (Option.some.inj (owner.symm.trans mine)) other
    · rw [served]
      intro p named
      have marked := ok.point
      unfold Put.of at named
      rcases at_ with ⟨mark, h, at_⟩ | ⟨body, orphans, h, at_, rfl⟩ | ⟨h, at_⟩
      · rw [at_] at named marked
        obtain rfl := Option.some.inj named
        refine ⟨ok.good own mine rfl rfl ⟨rfl, rfl⟩ rfl (fun _ absent => ?_) marked, rfl, rfl⟩
        cases absent
      · rw [at_] at named
        obtain rfl := Option.some.inj named
        refine ⟨ok.good own mine rfl rfl ⟨rfl, rfl⟩ rfl ?_ (fun _ absent => ?_), rfl, rfl⟩
        · intro body' same
          obtain rfl := Option.some.inj same
          exact ⟨orphans, h, at_, rfl⟩
        · cases absent
      · rw [at_] at named
        obtain rfl := Option.some.inj named
        refine ⟨ok.good own mine rfl rfl ⟨rfl, rfl⟩ rfl (fun _ absent => ?_) (fun _ absent => ?_), rfl, rfl⟩
        · cases absent
        · cases absent
    · rw [served]
      have written (d' : Daemon P V) (n : UInt64) : (Put.of d d' conn f.writer (.ok (.put n))).isSome := by
        unfold Put.of
        rcases at_ with ⟨_, _, at_⟩ | ⟨_, _, _, at_, _⟩ | ⟨_, at_⟩ <;> rw [at_] <;> rfl
      dsimp only [Except.map]
      rw [f.called_some reply (written _ _)]
      refine ok.writer (fun t named => ?_) ?_
      · cases named
      · rcases heard with rfl | rfl
        · apply Writer.answer_put
          rcases at_ with ⟨_, _, at_⟩ | ⟨_, _, _, at_, _⟩ | ⟨_, at_⟩
          · exact .inl ⟨_, _, _, at_⟩
          · exact .inr (.inl ⟨_, _, _, at_⟩)
          · exact .inr (.inr ⟨_, _, at_⟩)
        · exact (Writer.answer_error waits (by simp)).1
  · rw [refused] at served
    have unput : Put.of d d conn f.writer (.error e) = none := rfl
    rw [served] at heard
    constructor
    · rw [served]
      exact .refl d conn
    · rw [served]
      intro p named
      cases named
    · rw [served]
      have idle : e = .conflict → f.writer.took = none ∧ d.persists := by
        intro same
        obtain ⟨_, writes, past⟩ := stale same
        refine ⟨?_, writes⟩
        cases named : f.writer.took with
        | none => rfl
        | some t =>
          obtain ⟨_, _, _, _, _, current⟩ := ok.took t named
          exact absurd current past
      rcases heard with rfl | rfl
      · exact ok.lost waits idle ok.took
      · exact ok.lost waits (by simp) ok.took

/-- Any call that is served. -/
theorem Front.Ok.call (ok : f.Ok d) (own : f.conn = some conn) (waits : f.writer.point.calls)
    {reply : Except Error (Reply P V)} (heard : reply = (d.serve bytes conn f.writer).1 ∨ reply = .error .other) :
    Kept bytes d f conn reply := by
  have get (at_ : f.writer.point = .asking ∨ ∃ body h, f.writer.point = .rereading body h) :
      Kept bytes d f conn reply := by
    have served : d.serve bytes conn f.writer =
        (.ok (.got (d.handleSessionGet conn).1.1 (d.handleSessionGet conn).1.2), (d.handleSessionGet conn).2) := by
      unfold Daemon.serve
      rcases at_ with at_ | ⟨body, h, at_⟩ <;> rw [at_]
    rw [served] at heard
    constructor
    · rw [served]
      exact d.served_get conn
    · rw [served]
      intro p named
      cases named
    · rw [served]
      exact ok.got own at_ heard
  cases at_ : f.writer.point with
  | idle => rw [at_] at waits; cases waits
  | telling => rw [at_] at waits; cases waits
  | asking => exact get (.inl at_)
  | rereading body h => exact get (.inr ⟨body, h, at_⟩)
  | putting body mark h => exact ok.puts own (.inl ⟨mark, h, at_⟩) heard
  | retrying body orphans h => exact ok.puts own (.inr (.inl ⟨body, orphans, h, at_, rfl⟩)) heard
  | trimmed body h => exact ok.puts own (.inr (.inr ⟨h, at_⟩)) heard
  | releasing =>
    have served : d.serve bytes conn f.writer =
        (.ok (.released (d.handleSessionRelease conn).1), (d.handleSessionRelease conn).2) := by
      unfold Daemon.serve
      rw [at_]
    rw [served] at heard
    constructor
    · rw [served]
      exact d.served_release conn
    · rw [served]
      intro p named
      cases named
    · rw [served]
      exact ok.letGo at_ heard

/-- A start: what is read is on the screen, or carried. -/
theorem Front.Ok.restored (ok : f.Ok d) (panels : Layout.Node P → Layout.Node P) :
    (f.restored panels conn (d.handleSessionGet conn).1.1 (d.handleSessionGet conn).1.2).Ok
      (d.handleSessionGet conn).2 := by
  obtain ⟨read, session, persists, _, owned⟩ := d.handleSessionGet_spec conn
  unfold Front.restored
  split
  · exact {
      took := fun _ absent => (by cases absent)
      screen := fun _ absent => (by cases absent)
      orders := ok.orders
      notices := ok.notices
      point := trivial }
  · by_cases ours : (d.handleSessionGet conn).1.2
    · obtain ⟨mine, writes⟩ := owned ours
      simp only [ours, if_true]
      refine { took := ?_, screen := ?_, orders := ok.orders, notices := ok.notices, point := trivial }
      · intro t named
        obtain rfl := Option.some.inj named
        rw [persists, session, read]
        exact ⟨conn, rfl, mine, writes, rfl, rfl⟩
      · intro m named
        obtain rfl := Option.some.inj named
        refine ⟨?_, fun id live => live, rfl⟩
        intro b stored
        have applied : SessionBody.fromValue (d.handleSessionGet conn).1.1.version (d.handleSessionGet conn).1.1.body =
            .ok b := by
          dsimp only [Session.read] at stored
          cases read : SessionBody.fromValue (d.handleSessionGet conn).1.1.version (d.handleSessionGet conn).1.1.body with
          | ok b' =>
            rw [read] at stored
            rw [Option.some.inj stored]
          | error e =>
            rw [read] at stored
            cases stored
        simp only [App.applySessionValue, applied]
        constructor
        · intro id v found fresh _
          exact (if_neg fresh).trans found
        · intro _ k n found fresh
          exact (Function.update_of_ne fresh _ _).trans found
    · simp only [ours]
      exact {
        took := fun _ absent => (by cases absent)
        screen := fun _ absent => (by cases absent)
        orders := ok.orders
        notices := ok.notices
        point := trivial }

end Served

/-- Cut off, a writer has nothing to be promised. -/
theorem Point.Ok.alone {d d' : Daemon P V} {conn : Option Nat} {took : Option (Taking P V)} {p : Point P V}
    (ok : p.Ok d conn took) (writes : d.persists → d'.persists) : p.Ok d' none none := by
  induction p with
  | idle | asking | putting | trimmed => exact ok
  | releasing => exact rfl
  | rereading => exact ⟨rfl, writes ok.2⟩
  | retrying => exact ⟨rfl, writes ok.2.1, fun _ absent => (by cases absent)⟩
  | telling notice next below => exact ⟨ok.1, below ok.2⟩

/-- Without somewhere to write nobody took anything over. -/
theorem Point.Ok.unlocked {d d' : Daemon P V} {conn : Option Nat} {took : Option (Taking P V)} {p : Point P V}
    (ok : p.Ok d conn took) (without : d.persists = false) : p.Ok d' conn took := by
  induction p with
  | idle | asking | putting | trimmed | releasing => exact ok
  | rereading => exact absurd (without.symm.trans ok.2) Bool.false_ne_true
  | retrying => exact absurd (without.symm.trans ok.2.1) Bool.false_ne_true
  | telling notice next below => exact ⟨ok.1, below ok.2⟩

/-- A new connection is nobody's yet. -/
theorem Point.Ok.connected {d : Daemon P V} {c : Nat} {took : Option (Taking P V)} {p : Point P V}
    (ok : p.Ok d none took) (new : d.store.owner ≠ some c) : p.Ok d (some c) took := by
  induction p with
  | idle | asking | putting | trimmed | releasing | rereading => exact ok
  | retrying =>
    refine ⟨ok.1, ok.2.1, fun c' same owner => ?_⟩
    rw [← Option.some.inj same] at owner
    exact absurd owner new
  | telling notice next below => exact ⟨ok.1, below ok.2⟩

theorem Daemon.release_aside (d : Daemon P V) {conn c : Nat} (other : c ≠ conn) :
    d.Aside { d with store := d.store.release conn } c := by
  unfold SessionStore.release
  split
  · rename_i mine
    refine ⟨⟨fun absent => absurd absent (by simp), fun owner => ?_⟩, fun _ => rfl⟩
    exact absurd (Option.some.inj (owner.symm.trans mine)) other
  · exact .refl d c

/-- What a step keeps. -/
theorem World.Ok.step [DecidableEq V] {bytes : Value P V → Nat} {w w' : World ι P V} {put : Option (Put P V)} (ok : w.Ok)
    (step : Step bytes w put w') :
    w'.Ok ∧ Put.Between put w.daemon w'.daemon ∧ w.daemon.store.session.revision ≤ w'.daemon.store.session.revision := by
  have quiet : Put.Between none w.daemon w.daemon := fun _ absent => (by cases absent)
  cases step with
  | screen i layout panes => exact ⟨ok.set rfl ((ok.fronts i).screened layout panes), quiet, UInt64.le_refl _⟩
  | profile i panels key => exact ⟨ok.set rfl ((ok.fronts i).switched panels key), quiet, UInt64.le_refl _⟩
  | reclaim i =>
    exact ⟨ok.set rfl { ok.fronts i with screen := (ok.fronts i).screen }, quiet, UInt64.le_refl _⟩
  | tick i blocked on due =>
    refine ⟨ok.set ?_ ((ok.fronts i).ticked blocked), quiet, UInt64.le_refl _⟩
    unfold Front.ticked
    dsimp only
    split <;> rfl
  | capture i blocked nowMs on due changed =>
    refine ⟨ok.set ?_ ((ok.fronts i).captured nowMs), quiet, UInt64.le_refl _⟩
    unfold Front.captured
    dsimp only
    split <;> rfl
  | handoff i on =>
    refine ⟨ok.set ?_ (ok.fronts i).handedOff, quiet, UInt64.le_refl _⟩
    unfold Front.handedOff
    split <;> rfl
  | startBlind i off =>
    refine ⟨ok.set rfl ?_, quiet, UInt64.le_refl _⟩
    exact { ok.fronts i with took := fun _ absent => (by cases absent), point := trivial }
  | drain i notice rest told =>
    have all := (ok.fronts i).notices
    rw [told] at all
    have short : ({ w.fronts i with notices := rest } : Front P V).Ok w.daemon :=
      { ok.fronts i with notices := fun n member => all n (List.mem_cons_of_mem _ member) }
    refine ⟨ok.set ?_ (short.heard (all notice List.mem_cons_self)), quiet, UInt64.le_refl _⟩
    unfold Front.heard
    cases notice with
    | handedOff released => dsimp only; split <;> rfl
    | tooLarge | released | owner | retry => rfl
  | take i order rest idle sent =>
    have all := (ok.fronts i).orders
    rw [sent] at all
    have short : ({ w.fronts i with orders := rest } : Front P V).Ok w.daemon :=
      { ok.fronts i with orders := fun o member => all o (List.mem_cons_of_mem _ member) }
    exact ⟨ok.set rfl (short.take (all order List.mem_cons_self)), quiet, UInt64.le_refl _⟩
  | tell i notice next telling room =>
    exact ⟨ok.set rfl ((ok.fronts i).tell telling), quiet, UInt64.le_refl _⟩
  | start i panels off =>
    have served := w.daemon.served_get w.nextConn
    refine ⟨ok.moves (Nat.le_succ _) ?_ ?_ ?_ (fun writes => by rw [served.persists, writes]) ((ok.fronts i).restored panels),
      fun _ absent => (by cases absent), served.revision⟩
    · intro c named
      have same : (Front.restored (w.fronts i) panels w.nextConn (w.daemon.handleSessionGet w.nextConn).1.1
          (w.daemon.handleSessionGet w.nextConn).1.2).conn = some w.nextConn := by
        unfold Front.restored
        dsimp only
        split <;> rfl
      exact .inr ⟨Option.some.inj (named.symm.trans same), Nat.lt_succ_self _⟩
    · intro c owner
      rcases served.owner with same | claimed | absent
      · exact Nat.lt_succ_of_lt (ok.owner c (same.symm.trans owner))
      · rw [Option.some.inj (owner.symm.trans claimed)]
        exact Nat.lt_succ_self _
      · cases absent.symm.trans owner
    · exact fun c _ old => served.aside c (Nat.ne_of_lt old)
  | call i conn reply connected waits heard =>
    have kept := (ok.fronts i).call connected waits heard
    refine ⟨ok.moves (Nat.le_refl _) (fun _ named => .inl named) ?_ ?_ (fun writes => by rw [kept.served.persists, writes])
      kept.ok, kept.put, kept.served.revision⟩
    · intro c owner
      rcases kept.served.owner with same | claimed | absent
      · exact ok.owner c (same.symm.trans owner)
      · rw [Option.some.inj (owner.symm.trans claimed)]
        exact ok.conns i conn connected
      · cases absent.symm.trans owner
    · intro c other _
      exact kept.served.aside c fun same => other (same ▸ connected)
  | fail i waits =>
    exact ⟨ok.set rfl ((ok.fronts i).lost waits (by simp) (ok.fronts i).took), quiet, UInt64.le_refl _⟩
  | connect i alone on =>
    have new : w.daemon.store.owner ≠ some w.nextConn := fun owner => absurd (ok.owner _ owner) (Nat.lt_irrefl _)
    have own := ok.fronts i
    refine ⟨ok.moves (Nat.le_succ _) (fun c named => .inr ⟨(Option.some.inj named).symm, Nat.lt_succ_self _⟩)
      (fun c owner => Nat.lt_succ_of_lt (ok.owner c owner)) (fun _ _ _ => .refl _ _) id ?_, quiet, UInt64.le_refl _⟩
    refine { own with took := fun t named => ?_, point := ?_ }
    · obtain ⟨c, connected, _⟩ := own.took t named
      cases alone.symm.trans connected
    · have waits := own.point
      rw [alone] at waits
      exact waits.connected new
  | disconnect i conn connected =>
    have own := ok.fronts i
    refine ⟨ok.moves (Nat.le_refl _) (fun _ absent => (by cases absent)) ?_ ?_ id ?_, fun _ absent => (by cases absent), ?_⟩
    · intro c owner
      unfold SessionStore.release at owner
      split at owner
      · cases owner
      · exact ok.owner c owner
    · exact fun c other _ => w.daemon.release_aside fun same => other (same ▸ connected)
    · exact { own with took := fun _ absent => (by cases absent), point := own.point.alone id }
    · unfold SessionStore.release
      dsimp only
      split <;> exact UInt64.le_refl _
  | close =>
    exact ⟨⟨ok.apart, ok.conns, ok.owner, fun i => (ok.fronts i).aside (fun _ _ => ⟨Iff.rfl, fun _ => rfl⟩) id⟩,
      fun _ absent => (by cases absent), UInt64.le_refl _⟩
  | lateLock disk without =>
    have owner : (w.daemon.lateLock disk).store.owner = w.daemon.store.owner := by
      unfold Daemon.lateLock SessionStore.adoptFromDisk
      dsimp only
      split <;> rfl
    refine ⟨⟨ok.apart, ok.conns, fun c named => ok.owner c (owner.symm.trans named), fun i => ?_⟩,
      fun _ absent => (by cases absent), ?_⟩
    · have own := ok.fronts i
      refine { own with took := fun t named => ?_, point := own.point.unlocked without }
      obtain ⟨_, _, _, writes, _⟩ := own.took t named
      exact absurd (without.symm.trans writes) Bool.false_ne_true
    · unfold Daemon.lateLock SessionStore.adoptFromDisk
      dsimp only
      split
      · assumption
      · exact UInt64.le_refl _

omit [DecidableEq ι] in
theorem World.Fresh.ok {w : World ι P V} (fresh : w.Fresh) : w.Ok where
  apart := fun i _ c named _ => absurd ((fresh.2 i).2.1.symm.trans named) (by simp)
  conns := fun i c named => absurd ((fresh.2 i).2.1.symm.trans named) (by simp)
  owner := fun c named => absurd (fresh.1.symm.trans named) (by simp)
  fronts := by
    intro i
    obtain ⟨_, _, orders, notices, point, took, mark⟩ := fresh.2 i
    constructor
    · exact fun t named => absurd (took.symm.trans named) (by simp)
    · exact fun m named => absurd (mark.symm.trans named) (by simp)
    · exact fun o member => absurd (orders ▸ member) List.not_mem_nil
    · exact fun n member => absurd (notices ▸ member) List.not_mem_nil
    · rw [point]
      trivial

/-- The second put is later, or the count has ended. -/
def Put.Before (p q : Put P V) : Prop :=
  p.after.revision < q.after.revision ∨
    p.after.revision = 0xFFFFFFFFFFFFFFFF ∧ q.after.revision = 0xFFFFFFFFFFFFFFFF

theorem Put.Good.before {p q : Put P V} (good : q.Good) (earlier : p.after.revision ≤ q.before.revision) :
    p.Before q := by
  unfold Put.Before
  rw [good.revision]
  rcases saturatingSucc_grows q.before.revision with grows | ⟨last, same⟩
  · exact .inl (UInt64.lt_of_le_of_lt earlier grows)
  · rw [same]
    rcases UInt64.lt_or_eq_of_le earlier with lower | equal
    · exact .inl (last ▸ lower)
    · exact .inr ⟨equal.trans last, rfl⟩

/-- What a run keeps. -/
theorem World.Ok.run [DecidableEq V] {bytes : Value P V → Nat} {w w' : World ι P V} {puts : List (Put P V)} (ok : w.Ok)
    (run : Run bytes w puts w') :
    w'.Ok ∧ (∀ p ∈ puts, p.Good ∧ p.after.revision ≤ w'.daemon.store.session.revision) ∧ puts.Pairwise Put.Before ∧
      w.daemon.store.session.revision ≤ w'.daemon.store.session.revision := by
  induction run with
  | refl => exact ⟨ok, fun _ absent => absurd absent List.not_mem_nil, .nil, UInt64.le_refl _⟩
  | @step puts put w₁ w₂ _ step below =>
    obtain ⟨ok', good, ordered, grows⟩ := below
    obtain ⟨ok'', between, grows'⟩ := ok'.step step
    have new {q : Put P V} (member : q ∈ put.toList) := between q (Option.mem_toList.mp member)
    refine ⟨ok'', ?_, ?_, UInt64.le_trans grows grows'⟩
    · intro p member
      rcases List.mem_append.mp member with old | last
      · exact ⟨(good p old).1, UInt64.le_trans (good p old).2 grows'⟩
      · obtain ⟨good', _, after⟩ := new last
        exact ⟨good', after ▸ UInt64.le_refl _⟩
    · refine List.pairwise_append.mpr ⟨ordered, ?_, ?_⟩
      · cases put <;> simp
      · intro p old q last
        obtain ⟨good', before, _⟩ := new last
        exact good'.before (before ▸ (good p old).2)

/-- Over every run of the frontends: the revision never goes back and accepted puts are told
apart by it until the count ends, only the owner's put is accepted, and a put after a takeover
or of a retry leaves what was stored for slots the screen does not show. -/
theorem handoff_keeps [DecidableEq V] (bytes : Value P V → Nat) {w w' : World ι P V} {puts : List (Put P V)}
    (fresh : w.Fresh) (run : Run bytes w puts w') :
    (∀ w₁ ps qs, Run bytes w ps w₁ → Run bytes w₁ qs w' →
      w₁.daemon.store.session.revision ≤ w'.daemon.store.session.revision) ∧
    puts.Pairwise Put.Before ∧ (∀ p ∈ puts, p.owner = some p.conn) ∧
    (∀ p ∈ puts, p.KeepsTakeover) ∧ ∀ p ∈ puts, p.KeepsRetry := by
  obtain ⟨_, good, ordered, _⟩ := fresh.ok.run run
  refine ⟨fun w₁ ps qs first second => ?_, ordered, fun p member => (good p member).1.owner,
    fun p member => (good p member).1.takeover, fun p member => (good p member).1.retry⟩
  exact ((fresh.ok.run first).1.run second).2.2.2

/-- Two saved slots of which one is placed, and a count that has come to its end. -/
def sampleSession : Session Unit Nat :=
  ⟨schemaVersion, 0xFFFFFFFFFFFFFFFF,
    .body ⟨fun k => if k = "default".toList then some (.slot 1 "browser" () {}) else none,
      fun id => if id = 1 then some ⟨0, [], [], 0, []⟩ else if id = 2 then some ⟨6, [], [], 0, []⟩ else none⟩⟩

def sampleFront : Front Unit Nat where
  app := ⟨"default".toList, .slot 1 "browser" () {}, fun _ => none, fun _ => none, fun _ => none, fun _ => none, false, 0, none⟩
  policy := .new ownerRetryTicks
  orders := []
  notices := []
  writer := ⟨0, false, false, none, .idle, none⟩
  conn := none
  started := false

def sampleWorld : World Bool Unit Nat := ⟨⟨⟨sampleSession, none, false⟩, true⟩, fun _ => sampleFront, 0⟩

theorem sampleFresh : sampleWorld.Fresh := ⟨rfl, fun _ => ⟨rfl, rfl, rfl, rfl, rfl, rfl, rfl⟩⟩

/-- One round of the writer: the screen is captured, the order taken and the call served. -/
def sampleSave (i : Bool) (conn : Nat) : List (World Bool Unit Nat → World Bool Unit Nat) :=
  [fun w => w.set i ((w.fronts i).captured 7),
    fun w => w.set i { w.fronts i with
      orders := (w.fronts i).orders.tail
      writer := (w.fronts i).writer.order ((w.fronts i).orders.headD .ask) },
    fun w => w.calls (fun _ => 0) i conn (w.daemon.serve (fun _ => 0) conn (w.fronts i).writer).1]

/-- A frontend that saves and leaves, and one that starts then and shows another directory. -/
def sampleMoves : List (World Bool Unit Nat → World Bool Unit Nat) :=
  (fun w => w.starts true id) :: sampleSave true 0 ++
    [fun w => ⟨{ w.daemon with store := w.daemon.store.release 0 }, Function.update w.fronts true
        { w.fronts true with conn := none, writer := { (w.fronts true).writer with took := none } }, w.nextConn⟩,
      fun w => w.starts false id,
      fun w => w.set false ((w.fronts false).screened (.slot 1 "browser" () {}) fun _ => some ⟨5, [], [], 0, []⟩)] ++
    sampleSave false 1

def sampleAt (k : Nat) : World Bool Unit Nat := (sampleMoves.take k).foldl (fun w move => move w) sampleWorld

theorem sampleSaved : ∃ p, Run (fun _ => 0) sampleWorld [p] (sampleAt 4) ∧ p.after.revision = 0xFFFFFFFFFFFFFFFF := by
  have on : Run (fun _ => 0) sampleWorld [] (sampleAt 1) := Run.refl.step (.start true id rfl)
  have sent : Run (fun _ => 0) sampleWorld [] (sampleAt 2) :=
    on.step (.capture true false 7 rfl rfl fun same => Option.some_ne_none _ same.symm)
  have taken : Run (fun _ => 0) sampleWorld [] (sampleAt 3) := sent.step (.take true _ _ rfl rfl)
  exact ⟨_, taken.step (.call true 0 _ rfl rfl (.inl rfl)), rfl⟩

/-- What is stored of a slot, by its directory. -/
def Session.viewOf (s : Session Unit Nat) (id : Layout.SlotId) : Option Nat :=
  s.read.bind fun b => (b.slots id).map SlotState.view

theorem sampleRun : ∃ p q, Run (fun _ => 0) sampleWorld [p, q] (sampleAt 10) ∧
    p.after.revision = q.after.revision ∧ q.took.isSome ∧ (q.before.viewOf 1, q.before.viewOf 2) = (some 0, some 6) ∧
    (q.after.viewOf 1, q.after.viewOf 2) = (some 5, some 6) := by
  obtain ⟨p, saved, last⟩ := sampleSaved
  have gone : Run (fun _ => 0) sampleWorld [p] (sampleAt 5) := saved.step (.disconnect true 0 rfl)
  have second : Run (fun _ => 0) sampleWorld [p] (sampleAt 6) := gone.step (.start false id rfl)
  have shown : Run (fun _ => 0) sampleWorld [p] (sampleAt 7) := second.step (.screen false _ _)
  have sent : Run (fun _ => 0) sampleWorld [p] (sampleAt 8) :=
    shown.step (.capture false false 7 rfl rfl fun same => Option.some_ne_none _ same.symm)
  have taken : Run (fun _ => 0) sampleWorld [p] (sampleAt 9) := sent.step (.take false _ _ rfl rfl)
  exact ⟨p, _, taken.step (.call false 1 _ rfl rfl (.inl rfl)), last.trans rfl, rfl, rfl, rfl⟩

/-! Two takeovers while the count goes on: one frontend asks for the session after the other
saved a panel and left, and one saves again after the answer to its last save was lost. -/

def sampleCounting : World Bool Unit Nat :=
  ⟨⟨⟨{ sampleSession with revision := 4 }, none, false⟩, true⟩, fun _ => sampleFront, 0⟩

theorem sampleCountingFresh : sampleCounting.Fresh := ⟨rfl, fun _ => ⟨rfl, rfl, rfl, rfl, rfl, rfl, rfl⟩⟩

def sampleShow (i : Bool) (layout : Layout.Node Unit) (view : Nat) (w : World Bool Unit Nat) :
    World Bool Unit Nat :=
  w.set i ((w.fronts i).screened layout fun _ => some ⟨view, [], [], 0, []⟩)

def sampleBoth : Layout.Node Unit :=
  .split .horizontal [.slot 1 "browser" () {}, .slot 3 "browser" () {}] [.weight 1, .weight 1]

def sampleTake (i : Bool) (w : World Bool Unit Nat) : World Bool Unit Nat :=
  w.set i { w.fronts i with
    orders := (w.fronts i).orders.tail
    writer := (w.fronts i).writer.order ((w.fronts i).orders.headD .ask) }

def sampleCall (i : Bool) (conn : Nat) (w : World Bool Unit Nat) : World Bool Unit Nat :=
  w.calls (fun _ => 0) i conn (w.daemon.serve (fun _ => 0) conn (w.fronts i).writer).1

/-- What the writer has to tell is told, and the screen takes it in. -/
def sampleTell (i : Bool) (w : World Bool Unit Nat) : World Bool Unit Nat :=
  match (w.fronts i).writer.point with
  | .telling notice next =>
    w.set i { w.fronts i with
      notices := (w.fronts i).notices ++ [notice]
      writer := { (w.fronts i).writer with point := next } }
  | _ => w

def sampleDrain (i : Bool) (w : World Bool Unit Nat) : World Bool Unit Nat :=
  match (w.fronts i).notices with
  | notice :: rest => w.set i (({ w.fronts i with notices := rest } : Front Unit Nat).heard notice)
  | [] => w

def sampleAsks : List (World Bool Unit Nat → World Bool Unit Nat) :=
  [fun w => w.starts true id, fun w => w.starts false id, sampleShow true sampleBoth 8,
    fun w => w.set true ((w.fronts true).captured 7), sampleTake true, sampleCall true 0,
    fun w => ⟨{ w.daemon with store := w.daemon.store.release 0 }, Function.update w.fronts true
      { w.fronts true with conn := none, writer := { (w.fronts true).writer with took := none } }, w.nextConn⟩,
    fun w => w.set false { w.fronts false with policy := (w.fronts false).policy.askSoon },
    fun w => w.set false ((w.fronts false).ticked false), sampleTake false, sampleCall false 1,
    sampleTell false, sampleDrain false, fun w => w.set false ((w.fronts false).captured 9),
    sampleTake false, sampleCall false 1]

def sampleRetries : List (World Bool Unit Nat → World Bool Unit Nat) :=
  [fun w => w.starts true id, sampleShow true sampleBoth 8,
    fun w => w.set true ((w.fronts true).captured 7), sampleTake true,
    fun w => w.calls (fun _ => 0) true 0 (.error .other), sampleTell true, sampleDrain true,
    sampleShow true (.slot 1 "browser" () {}) 5, fun w => w.set true ((w.fronts true).captured 9),
    sampleTake true, sampleCall true 0, sampleCall true 0, sampleCall true 0]

/-- The world after the first `k` moves. -/
def sampleAfter (moves : List (World Bool Unit Nat → World Bool Unit Nat)) (k : Nat) : World Bool Unit Nat :=
  (moves.take k).foldl (fun w move => move w) sampleCounting

theorem sampleAsked : ∃ p q, Run (fun _ => 0) sampleCounting [p, q] (sampleAfter sampleAsks 16) ∧
    q.took.isSome ∧ (q.before.viewOf 3, q.after.viewOf 3) = (some 8, some 8) := by
  have on : Run (fun _ => 0) sampleCounting [] (sampleAfter sampleAsks 1) := Run.refl.step (.start true id rfl)
  have both : Run (fun _ => 0) sampleCounting [] (sampleAfter sampleAsks 2) := on.step (.start false id rfl)
  have shown : Run (fun _ => 0) sampleCounting [] (sampleAfter sampleAsks 3) := both.step (.screen true _ _)
  have sent : Run (fun _ => 0) sampleCounting [] (sampleAfter sampleAsks 4) :=
    shown.step (.capture true false 7 rfl rfl fun same => Option.some_ne_none _ same.symm)
  have taken : Run (fun _ => 0) sampleCounting [] (sampleAfter sampleAsks 5) := sent.step (.take true _ _ rfl rfl)
  obtain ⟨p, saved⟩ : ∃ p, Run (fun _ => 0) sampleCounting [p] (sampleAfter sampleAsks 6) :=
    ⟨_, taken.step (.call true 0 _ rfl rfl (.inl rfl))⟩
  have gone : Run (fun _ => 0) sampleCounting [p] (sampleAfter sampleAsks 7) := saved.step (.disconnect true 0 rfl)
  have soon : Run (fun _ => 0) sampleCounting [p] (sampleAfter sampleAsks 8) := gone.step (.reclaim false)
  have due : Run (fun _ => 0) sampleCounting [p] (sampleAfter sampleAsks 9) :=
    soon.step (.tick false false rfl (by decide))
  have asks : Run (fun _ => 0) sampleCounting [p] (sampleAfter sampleAsks 10) := due.step (.take false _ _ rfl rfl)
  have owns : Run (fun _ => 0) sampleCounting [p] (sampleAfter sampleAsks 11) :=
    asks.step (.call false 1 _ rfl rfl (.inl rfl))
  have told : Run (fun _ => 0) sampleCounting [p] (sampleAfter sampleAsks 12) :=
    owns.step (.tell false _ _ rfl (by decide))
  have heard : Run (fun _ => 0) sampleCounting [p] (sampleAfter sampleAsks 13) := told.step (.drain false _ _ rfl)
  have sent' : Run (fun _ => 0) sampleCounting [p] (sampleAfter sampleAsks 14) :=
    heard.step (.capture false false 9 rfl rfl fun same => Option.some_ne_none _ same.symm)
  have taken' : Run (fun _ => 0) sampleCounting [p] (sampleAfter sampleAsks 15) := sent'.step (.take false _ _ rfl rfl)
  exact ⟨p, _, taken'.step (.call false 1 _ rfl rfl (.inl rfl)), rfl, rfl⟩

theorem sampleRetried : ∃ p q, Run (fun _ => 0) sampleCounting [p, q] (sampleAfter sampleRetries 13) ∧
    (∃ own, q.own = some own ∧ own.slots 3 = none) ∧ (q.before.viewOf 3, q.after.viewOf 3) = (some 8, some 8) := by
  have on : Run (fun _ => 0) sampleCounting [] (sampleAfter sampleRetries 1) := Run.refl.step (.start true id rfl)
  have shown : Run (fun _ => 0) sampleCounting [] (sampleAfter sampleRetries 2) := on.step (.screen true _ _)
  have sent : Run (fun _ => 0) sampleCounting [] (sampleAfter sampleRetries 3) :=
    shown.step (.capture true false 7 rfl rfl fun same => Option.some_ne_none _ same.symm)
  have taken : Run (fun _ => 0) sampleCounting [] (sampleAfter sampleRetries 4) := sent.step (.take true _ _ rfl rfl)
  obtain ⟨p, saved⟩ : ∃ p, Run (fun _ => 0) sampleCounting [p] (sampleAfter sampleRetries 5) :=
    ⟨_, taken.step (.call true 0 _ rfl rfl (.inr rfl))⟩
  have told : Run (fun _ => 0) sampleCounting [p] (sampleAfter sampleRetries 6) :=
    saved.step (.tell true _ _ rfl (by decide))
  have heard : Run (fun _ => 0) sampleCounting [p] (sampleAfter sampleRetries 7) := told.step (.drain true _ _ rfl)
  have alone : Run (fun _ => 0) sampleCounting [p] (sampleAfter sampleRetries 8) := heard.step (.screen true _ _)
  have sent' : Run (fun _ => 0) sampleCounting [p] (sampleAfter sampleRetries 9) :=
    alone.step (.capture true false 9 rfl rfl fun same => Option.some_ne_none _ same.symm)
  have taken' : Run (fun _ => 0) sampleCounting [p] (sampleAfter sampleRetries 10) := sent'.step (.take true _ _ rfl rfl)
  have refused : Run (fun _ => 0) sampleCounting [p] (sampleAfter sampleRetries 11) :=
    taken'.step (.call true 0 _ rfl rfl (.inl rfl))
  have reread : Run (fun _ => 0) sampleCounting [p] (sampleAfter sampleRetries 12) :=
    refused.step (.call true 0 _ rfl rfl (.inl rfl))
  exact ⟨p, _, reread.step (.call true 0 _ rfl rfl (.inl rfl)), ⟨_, rfl, rfl⟩, rfl⟩

/-- A takeover at the start of a frontend, one by asking, and a retry. -/
theorem handoff_keeps_sample :
    (∃ p q : Put Unit Nat, p.after.revision = q.after.revision ∧ Put.Before p q ∧ q.owner = some q.conn ∧
      q.took.isSome ∧ q.KeepsTakeover ∧ q.KeepsRetry) ∧
    (∃ p q : Put Unit Nat, Put.Before p q ∧ q.owner = some q.conn ∧ q.took.isSome ∧ q.KeepsTakeover ∧
      (q.before.viewOf 3, q.after.viewOf 3) = (some 8, some 8)) ∧
    ∃ p q : Put Unit Nat, Put.Before p q ∧ q.owner = some q.conn ∧ q.KeepsRetry ∧
      (∃ own, q.own = some own ∧ own.slots 3 = none) ∧
      (q.before.viewOf 3, q.after.viewOf 3) = (some 8, some 8) := by
  refine ⟨?_, ?_, ?_⟩
  · obtain ⟨p, q, run, same, took, _⟩ := sampleRun
    obtain ⟨_, ordered, owner, takeover, retry⟩ := handoff_keeps (fun _ => 0) sampleFresh run
    have last : q ∈ [p, q] := List.mem_cons_of_mem _ (List.mem_singleton_self q)
    exact ⟨p, q, same, List.rel_of_pairwise_cons ordered (List.mem_singleton_self q), owner q last, took,
      takeover q last, retry q last⟩
  · obtain ⟨p, q, run, took, kept⟩ := sampleAsked
    obtain ⟨_, ordered, owner, takeover, _⟩ := handoff_keeps (fun _ => 0) sampleCountingFresh run
    have last : q ∈ [p, q] := List.mem_cons_of_mem _ (List.mem_singleton_self q)
    exact ⟨p, q, List.rel_of_pairwise_cons ordered (List.mem_singleton_self q), owner q last, took,
      takeover q last, kept⟩
  · obtain ⟨p, q, run, own, kept⟩ := sampleRetried
    obtain ⟨_, ordered, owner, _, retry⟩ := handoff_keeps (fun _ => 0) sampleCountingFresh run
    have last : q ∈ [p, q] := List.mem_cons_of_mem _ (List.mem_singleton_self q)
    exact ⟨p, q, List.rel_of_pairwise_cons ordered (List.mem_singleton_self q), owner q last,
      retry q last, own, kept⟩

/-- At the end of the count two puts carry one revision, and a takeover replaces the slots it
shows itself. -/
theorem takeover_replaces : ∃ (w : World Bool Unit Nat) (p q : Put Unit Nat) (w' : World Bool Unit Nat),
    w.Fresh ∧ Run (fun _ => 0) w [p, q] w' ∧ p.after.revision = q.after.revision ∧ q.took.isSome ∧
      q.before.viewOf 1 = some 0 ∧ q.after.viewOf 1 = some 5 := by
  obtain ⟨p, q, run, same, took, before, after⟩ := sampleRun
  exact ⟨_, p, q, _, sampleFresh, run, same, took, congrArg Prod.fst before, congrArg Prod.fst after⟩

end Norte.UiSession
