import DroneTurret.Gui.Window
import Mathlib.Data.List.Sort

/-!
# The table of events and what is shown of it

A detection becomes a row of the table `events` before it is drawn. The overlay of the past report
reads the last hundred rows when it is switched on, and the page of the database reads the rows up
to the present when its button is pressed; neither reads them again by itself.

The table and the view need not agree. The button of the view empties the view only, a detection is
drawn even if its row was refused, other connections may write to the same file, and the clock may
go back.

The numbers of a detection are finite. The text of the report, which is stored in each row and never
read, is left out.

## Main definitions

* `EventTable` — the table, with ids that increase
* `Console`, `exec` — the view, the overlay and the page over a run
* `live` — the detections since the view was emptied

## Main results

* `overlay_spec` — what the overlay shows, and that the live points are among it
* `table_spec` — what the page shows, and when it is all that was stored
-/

namespace DroneTurret

namespace Gui

open CString

variable {T : Type*}

/-! ### The table -/

/-- A row of `events`. -/
structure Record (T : Type*) where
  id : ℕ
  time : T
  x : ℚ
  y : ℚ
  z : ℚ

/-- The columns that the view selects. -/
def Record.row (r : Record T) : EventRow := (r.x, r.y, r.z)

/-- Where the view draws the row. -/
def Record.point (r : Record T) : Vec3 := normalizeRow r.row

/-- The table, in the order of insertion. No id is used twice: `AUTOINCREMENT`. -/
structure EventTable (T : Type*) where
  rows : List (Record T)
  lastId : ℕ
  increasing : rows.Pairwise fun r r' => r.id < r'.id
  id_le : ∀ r ∈ rows, r.id ≤ lastId

namespace EventTable

variable (e : EventTable T)

def insert (time : T) (x y z : ℚ) : EventTable T where
  rows := e.rows ++ [⟨e.lastId + 1, time, x, y, z⟩]
  lastId := e.lastId + 1
  increasing := by
    refine List.pairwise_append.mpr
      ⟨e.increasing, List.pairwise_singleton _ _, fun r hr r' hr' => ?_⟩
    rw [List.mem_singleton.mp hr']
    exact Nat.lt_succ_of_le (e.id_le r hr)
  id_le r hr := by
    rcases List.mem_append.mp hr with hr | hr
    · exact Nat.le_succ_of_le (e.id_le r hr)
    · rw [List.mem_singleton.mp hr]

/-- `SELECT x,y,z FROM events ORDER BY id DESC LIMIT limit`. -/
def selectRecent (limit : ℕ) : List EventRow :=
  ((e.rows.mergeSort fun r r' => decide (r'.id ≤ r.id)).take limit).map Record.row

theorem eq_of_id_eq {r r' : Record T} (hr : r ∈ e.rows) (hr' : r' ∈ e.rows) (h : r.id = r'.id) :
    r = r' :=
  List.inj_on_of_nodup_map (List.pairwise_map.mpr (e.increasing.imp Nat.ne_of_lt)) hr hr' h

/-- The rows that were inserted last, in reverse. -/
theorem selectRecent_eq (limit : ℕ) :
    e.selectRecent limit = ((e.rows.map Record.row).rtake limit).reverse := by
  have hsort : (e.rows.mergeSort fun r r' => decide (r'.id ≤ r.id)) = e.rows.reverse := by
    refine @List.Perm.eq_of_pairwise _ (fun r r' => decide (r'.id ≤ r.id) = true) _ _
      (fun r r' hr hr' h h' => ?_) ?_ ?_ ?_
    · exact e.eq_of_id_eq (List.mem_mergeSort.mp hr) (List.mem_reverse.mp hr')
        (Nat.le_antisymm (of_decide_eq_true h') (of_decide_eq_true h))
    · refine List.pairwise_mergeSort (fun a b c hab hbc => ?_) (fun a b => ?_) e.rows
      · exact decide_eq_true (Nat.le_trans (of_decide_eq_true hbc) (of_decide_eq_true hab))
      · rw [Bool.or_eq_true, decide_eq_true_iff, decide_eq_true_iff]
        exact Nat.le_total b.id a.id
    · rw [List.pairwise_reverse]
      exact e.increasing.imp fun h => decide_eq_true (Nat.le_of_lt h)
    · exact (List.mergeSort_perm e.rows _).trans e.rows.reverse_perm.symm
  rw [selectRecent, hsort, List.rtake_eq_reverse_take_reverse, List.reverse_reverse,
    ← List.map_reverse, List.map_take]

end EventTable

/-! ### The window -/

/-- How the statements of `insertEvent` ended. -/
inductive Execution
  | inserted
  /-- `Parameter count mismatch`, and whether the second statement was executed. -/
  | mismatch (fallback : Bool)
  | error

/-- What the window gets from Qt and SQLite. -/
structure Platform (T : Type*) [LinearOrder T] where
  isOpen : Bool
  toDouble : List Byte → Option ℚ
  /-- A number that is written with six decimals and read again. -/
  number : ℚ → ℚ
  /-- `ORDER BY detection_time ASC`. -/
  orderByTime : List (Record T) → List (Record T)
  orderByTime_perm : ∀ l, (orderByTime l).Perm l
  orderByTime_sorted : ∀ l, (orderByTime l).Pairwise fun r r' => r.time ≤ r'.time

/-- The table, the view with its overlay, and the page of the database. -/
structure Console (T : Type*) where
  events : EventTable T
  graph : Tab3DGraph
  dbOverlayOn : Bool
  dbPoints : List Vec3
  seriesDbRed : List Vec3
  seriesDbYellow : List Vec3
  seriesDbBlue : List Vec3
  dbTable : List (Record T)

/-- The window after its construction, with the table as it was found. -/
def Console.start (e : EventTable T) : Console T := ⟨e, .start, false, [], [], [], [], []⟩

/-- What happens to the window. A statement of SQL may fail. -/
inductive Action (T : Type*)
  | recvLine (line : List Byte) (now : T) (execution : Execution)
  | queryClicked (now : T) (executed : Bool)
  | toggleDbClicked (executed : Bool)
  | clearClicked
  /-- Another connection writes to the table. -/
  | foreignInsert (time : T) (x y z : ℚ)

section Window

variable [LinearOrder T] (P : Platform T)

def insertEvent (now : T) (execution : Execution) (e : EventTable T) (d : Detection ℚ) :
    EventTable T :=
  if P.isOpen then
    match execution with
    | .inserted => e.insert now d.x d.y d.z
    | .mismatch true => e.insert now (P.number d.x) (P.number d.y) (P.number d.z)
    | .mismatch false => e
    | .error => e
  else e

namespace Console

variable (c : Console T)

def fetchRecentFromDb (limit : ℕ) (executed : Bool) : List Vec3 :=
  if P.isOpen && executed then ((c.events.selectRecent limit).map normalizeRow).reverse else []

def refreshDbOverlay (executed : Bool) : Console T :=
  let points := c.fetchRecentFromDb P 100 executed
  { c with
    dbPoints := points
    seriesDbRed := points.filter (isRed ieee)
    seriesDbYellow := points.filter fun p => !isRed ieee p && isYellow ieee p
    seriesDbBlue := points.filter fun p => !isRed ieee p && !isYellow ieee p }

/-- The points of the overlay stay in memory when it is switched off. -/
def onToggleDbOverlay (on executed : Bool) : Console T :=
  let c := { c with dbOverlayOn := on }
  if on then c.refreshDbOverlay P executed
  else { c with seriesDbRed := [], seriesDbYellow := [], seriesDbBlue := [] }

def loadSnapshotAndRender (asOf : T) (executed : Bool) : Console T :=
  if P.isOpen && executed then
    { c with dbTable := P.orderByTime (c.events.rows.filter fun r => decide (r.time ≤ asOf)) }
  else c

def apply : Action T → Console T
  | .recvLine line now execution =>
    match onRecvLine P.toDouble line with
    | none => c
    | some d =>
      { c with
        events := insertEvent P now execution c.events d
        graph := c.graph.addDetection ieee d.x d.y d.z }
  | .queryClicked now executed => c.loadSnapshotAndRender P now executed
  | .toggleDbClicked executed => c.onToggleDbOverlay P (!c.dbOverlayOn) executed
  | .clearClicked => { c with graph := c.graph.onClearClicked }
  | .foreignInsert time x y z => { c with events := c.events.insert time x y z }

end Console

/-- The window after some actions, over a table that was found. -/
def exec (e : EventTable T) (acts : List (Action T)) : Console T :=
  acts.foldl (Console.apply P) (.start e)

theorem exec_append (e : EventTable T) (acts later : List (Action T)) :
    exec P e (acts ++ later) = later.foldl (Console.apply P) (exec P e acts) :=
  List.foldl_append

end Window

/-! ### The view after any run -/

/-- The last thirty points of a history are drawn, by their depth. The path and the latest point are
left open. -/
structure Drawn (h : List Vec3) (g : Tab3DGraph) : Prop extends Series g where
  points : g.points = h.rtake maxPoints

theorem drawn_rebuildAll {g : Tab3DGraph} {h : List Vec3} (hh : ∀ p ∈ h, p.z ≠ .nan)
    (hpoints : g.points = h.rtake maxPoints) : Drawn h (g.rebuildAll ieee) := by
  have hkept : (g.rebuildAll ieee).points = h.rtake maxPoints := by
    rw [g.points_rebuildAll, hpoints]
    exact rtake_rtake maxPoints h
  refine ⟨(series_rebuildAll_iff g).mpr fun p hp => ?_, hkept⟩
  rw [hkept] at hp
  exact hh p (List.mem_of_mem_drop hp)

/-- The depths of an operation are numbers. -/
def Op.Plain : Op → Prop
  | .addDetection _ _ z => z ≠ .nan
  | .onClearClicked => True
  | .reloadRecentFromDb result => ∀ rows ∈ result, ∀ r ∈ rows, r.2.2 ≠ .nan

theorem normalize_z_ne_nan {x y z : Number} (h : z ≠ .nan) : (normalize ieee x y z).z ≠ .nan :=
  fun hnan => h ((Number.round_eq_nan_iff float_ne_nan).mp hnan)

theorem Op.Plain.record {h : List Vec3} (hh : ∀ p ∈ h, p.z ≠ .nan) {op : Op} (hop : op.Plain) :
    ∀ p ∈ op.record h, p.z ≠ .nan := by
  intro p hp
  match op with
  | .addDetection x y z =>
    rcases List.mem_append.mp hp with hp | hp
    · exact hh p hp
    · rw [List.mem_singleton.mp hp]
      exact normalize_z_ne_nan hop
  | .onClearClicked => cases hp
  | .reloadRecentFromDb none => exact hh p hp
  | .reloadRecentFromDb (some rows) =>
    obtain ⟨r, hr, rfl⟩ := List.mem_map.mp hp
    exact normalize_z_ne_nan (hop rows rfl r (List.mem_reverse.mp hr))

theorem Drawn.apply {h : List Vec3} {g : Tab3DGraph} (hh : ∀ p ∈ h, p.z ≠ .nan) (hg : Drawn h g)
    {op : Op} (hop : op.Plain) : Drawn (op.record h) (op.apply g) := by
  have hrecord := hop.record hh
  match op with
  | .addDetection x y z =>
    obtain ⟨g', hpoints, hadd⟩ := g.addDetection_eq x y z (A := ieee)
    change Drawn _ (g.addDetection ieee x y z)
    rw [hadd]
    refine drawn_rebuildAll hrecord ?_
    change (g'.points ++ [normalize ieee x y z]).rtake maxPoints = _
    rw [hpoints, hg.points]
    exact rtake_append_rtake maxPoints h _
  | .onClearClicked => exact drawn_rebuildAll (List.forall_mem_nil _) rfl
  | .reloadRecentFromDb none => exact hg
  | .reloadRecentFromDb (some rows) =>
    refine drawn_rebuildAll hrecord ?_
    change (if _ then _ else _) = _
    rw [ite_eq_rtake, ← List.map_reverse]
    rfl

theorem drawn_run {ops : List Op} (hops : ∀ op ∈ ops, op.Plain) :
    (∀ p ∈ history ops, p.z ≠ .nan) ∧ Drawn (history ops) (run ops) := by
  induction ops using List.reverseRecOn with
  | nil => exact ⟨List.forall_mem_nil _, shows_start.toSeries, rfl⟩
  | append_singleton ops op ih =>
    obtain ⟨hnumber, hdrawn⟩ := ih fun op' hop' => hops op' (List.mem_append_left _ hop')
    have hop := hops op (List.mem_append_right _ (List.mem_singleton_self op))
    rw [history_concat, run_concat]
    exact ⟨hop.record hnumber, hdrawn.apply hnumber hop⟩

/-! ### Actions -/

namespace Action

def clears : Action T → Bool
  | .clearClicked => true
  | _ => false

def toggles : Action T → Bool
  | .toggleDbClicked _ => true
  | _ => false

def queries : Action T → Bool
  | .queryClicked _ _ => true
  | _ => false

def isForeign : Action T → Bool
  | .foreignInsert _ _ _ _ => true
  | _ => false

/-- The time that is read from the clock, or written by another connection. -/
def time? : Action T → Option T
  | .recvLine _ now _ => some now
  | .queryClicked now _ => some now
  | .foreignInsert time _ _ _ => some time
  | _ => none

variable [LinearOrder T] (P : Platform T)

/-- The operation on the view. -/
def viewOp : Action T → Option Op
  | .recvLine line _ _ =>
    (onRecvLine P.toDouble line).map fun d => .addDetection d.x d.y d.z
  | .clearClicked => some .onClearClicked
  | _ => none

theorem plain_of_viewOp {a : Action T} {op : Op} (h : a.viewOp P = some op) : op.Plain := by
  cases a with
  | recvLine line now execution =>
    obtain ⟨d, -, rfl⟩ := Option.map_eq_some_iff.mp h
    exact Number.noConfusion
  | clearClicked =>
    obtain rfl := Option.some.inj h
    trivial
  | queryClicked _ _ | toggleDbClicked _ | foreignInsert _ _ _ _ => cases h

/-- The row that is inserted, without its id. -/
def stored : Action T → Option (T × ℚ × ℚ × ℚ)
  | .recvLine line now execution =>
    (onRecvLine P.toDouble line).bind fun d =>
      if P.isOpen then
        match execution with
        | .inserted => some (now, d.x, d.y, d.z)
        | .mismatch true => some (now, P.number d.x, P.number d.y, P.number d.z)
        | .mismatch false => none
        | .error => none
      else none
  | .foreignInsert time x y z => some (time, x, y, z)
  | _ => none

/-- The point that is drawn. -/
def drawn : Action T → Option Vec3
  | .recvLine line _ _ => (onRecvLine P.toDouble line).map fun d => normalize ieee d.x d.y d.z
  | _ => none

/-- A detection is stored as it is drawn. -/
def Recorded : Action T → Prop
  | .recvLine line _ execution => ∀ d, onRecvLine P.toDouble line = some d →
      execution = .inserted ∨ execution = .mismatch true ∧
        P.number d.x = d.x ∧ P.number d.y = d.y ∧ P.number d.z = d.z
  | _ => True

end Action

/-- The actions since the button of the view was last pressed. -/
def sinceClear (acts : List (Action T)) : List (Action T) := acts.rtakeWhile fun a => !a.clears

/-- The rows that others have written since. -/
def foreignRows (acts : List (Action T)) : ℕ := (sinceClear acts).countP Action.isForeign

theorem sinceClear_concat {acts : List (Action T)} {a : Action T} (ha : a.clears = false) :
    sinceClear (acts ++ [a]) = sinceClear acts ++ [a] :=
  List.rtakeWhile_concat_pos _ _ _ (by rw [ha]; rfl)

theorem sinceClear_clear (acts : List (Action T)) : sinceClear (acts ++ [.clearClicked]) = [] :=
  List.rtakeWhile_concat_neg _ _ _ Bool.false_ne_true

theorem foreignRows_concat {acts : List (Action T)} {a : Action T} (ha : a.clears = false) :
    foreignRows (acts ++ [a]) = foreignRows acts + if a.isForeign then 1 else 0 := by
  rw [foreignRows, sinceClear_concat ha, List.countP_append, List.countP_singleton]
  rfl

theorem filterMap_concat {α β : Type*} (f : α → Option β) (l : List α) (a : α) :
    (l ++ [a]).filterMap f = l.filterMap f ++ (f a).toList := by
  rw [List.filterMap_append]
  cases h : f a with
  | none =>
    rw [List.filterMap_cons_none h]
    rfl
  | some b =>
    rw [List.filterMap_cons_some h]
    rfl

section Live

variable [LinearOrder T] (P : Platform T)

/-- The points that were drawn since. -/
def live (acts : List (Action T)) : List Vec3 := (sinceClear acts).filterMap (Action.drawn P)

variable {P}

theorem live_concat {acts : List (Action T)} {a : Action T} (ha : a.clears = false) :
    live P (acts ++ [a]) = live P acts ++ (a.drawn P).toList := by
  rw [live, sinceClear_concat ha, filterMap_concat]
  rfl

theorem exec_concat (e : EventTable T) (acts : List (Action T)) (a : Action T) :
    exec P e (acts ++ [a]) = (exec P e acts).apply P a := by
  rw [exec_append]
  rfl

theorem graph_apply (c : Console T) (a : Action T) :
    (c.apply P a).graph = ((a.viewOp P).map fun op => op.apply c.graph).getD c.graph := by
  cases a with
  | recvLine line now execution =>
    rw [Console.apply, Action.viewOp]
    cases onRecvLine P.toDouble line <;> rfl
  | queryClicked now executed =>
    rw [Console.apply, Console.loadSnapshotAndRender]
    split <;> rfl
  | toggleDbClicked executed =>
    rw [Console.apply, Console.onToggleDbOverlay]
    dsimp only
    split <;> rfl
  | clearClicked => rfl
  | foreignInsert time x y z => rfl

/-- The view of the window is a run of the view. -/
theorem graph_exec (e : EventTable T) (acts : List (Action T)) :
    (exec P e acts).graph = run (acts.filterMap (Action.viewOp P)) := by
  induction acts using List.reverseRecOn with
  | nil => rfl
  | append_singleton acts a ih =>
    rw [exec_concat, graph_apply, ih, filterMap_concat]
    cases a.viewOp P with
    | none =>
      rw [Option.toList_none, List.append_nil]
      rfl
    | some op =>
      rw [Option.toList_some, run_concat]
      rfl

theorem history_viewOps (acts : List (Action T)) :
    history (acts.filterMap (Action.viewOp P)) = live P acts := by
  induction acts using List.reverseRecOn with
  | nil => rfl
  | append_singleton acts a ih =>
    rw [filterMap_concat]
    cases a with
    | recvLine line now execution =>
      rw [live_concat rfl, Action.drawn, Action.viewOp]
      cases onRecvLine P.toDouble line with
      | none =>
        rw [Option.map_none, Option.map_none, Option.toList_none, Option.toList_none,
          List.append_nil, List.append_nil, ih]
      | some d =>
        rw [Option.map_some, Option.toList_some, history_concat, ih]
        rfl
    | clearClicked =>
      rw [live, sinceClear_clear]
      exact history_concat _ .onClearClicked
    | queryClicked _ _ | toggleDbClicked _ | foreignInsert _ _ _ _ =>
      rw [live_concat rfl, ← ih]
      change history (_ ++ []) = history _ ++ []
      rw [List.append_nil, List.append_nil]

/-- The view shows the last of what was drawn since it was emptied. -/
theorem drawn_exec (e : EventTable T) (acts : List (Action T)) :
    Drawn (live P acts) (exec P e acts).graph := by
  rw [graph_exec, ← history_viewOps]
  refine (drawn_run fun op hop => ?_).2
  obtain ⟨a, -, hop⟩ := List.mem_filterMap.mp hop
  exact Action.plain_of_viewOp P hop

/-! ### The table after any run -/

theorem events_apply (c : Console T) (a : Action T) :
    (c.apply P a).events =
      ((a.stored P).map fun r => c.events.insert r.1 r.2.1 r.2.2.1 r.2.2.2).getD c.events := by
  cases a with
  | recvLine line now execution =>
    rw [Console.apply, Action.stored]
    cases onRecvLine P.toDouble line with
    | none => rfl
    | some d =>
      rw [Option.bind_some]
      dsimp only
      unfold insertEvent
      split
      · split <;> rfl
      · rfl
  | queryClicked now executed =>
    rw [Console.apply, Console.loadSnapshotAndRender]
    split <;> rfl
  | toggleDbClicked executed =>
    rw [Console.apply, Console.onToggleDbOverlay]
    dsimp only
    split <;> rfl
  | clearClicked => rfl
  | foreignInsert time x y z => rfl

/-- Rows are never changed or deleted. -/
theorem rows_extended_apply (c : Console T) (a : Action T) :
    c.events.rows <+: (c.apply P a).events.rows := by
  rw [events_apply]
  cases a.stored P with
  | none => exact List.prefix_refl _
  | some r => exact List.prefix_append _ _

theorem rows_extended (c : Console T) (acts : List (Action T)) :
    c.events.rows <+: (acts.foldl (Console.apply P) c).events.rows := by
  induction acts generalizing c with
  | nil => exact List.prefix_refl _
  | cons a acts ih => exact (rows_extended_apply c a).trans (ih _)

/-- What was stored since the view was emptied: all that was drawn, and the rows of others. -/
def Logged (P : Platform T) (acts : List (Action T)) (rows : List (Record T)) : Prop :=
  ∃ before since, rows = before ++ since ∧ (live P acts).Sublist (since.map Record.point) ∧
    since.length = (live P acts).length + foreignRows acts

/-- An action that stores nothing draws nothing, is no row of others, or empties the view. -/
theorem stored_cases (hopen : P.isOpen = true) {a : Action T} (ha : a.Recorded P)
    (hclear : a.clears = false) :
    (a.stored P = none ∧ a.drawn P = none ∧ a.isForeign = false) ∨
      ∃ r, a.stored P = some r ∧
        (a.drawn P = some (normalizeRow (r.2.1, r.2.2.1, r.2.2.2)) ∧ a.isForeign = false ∨
          a.drawn P = none ∧ a.isForeign = true) := by
  cases a with
  | recvLine line now execution =>
    rw [Action.stored, Action.drawn]
    cases h : onRecvLine P.toDouble line with
    | none => exact .inl ⟨rfl, rfl, rfl⟩
    | some d =>
      refine .inr ⟨(now, d.x, d.y, d.z), ?_, .inl ⟨rfl, rfl⟩⟩
      rw [Option.bind_some, if_pos hopen]
      rcases ha d h with rfl | ⟨rfl, hx, hy, hz⟩
      · rfl
      · dsimp only
        rw [hx, hy, hz]
  | clearClicked => cases hclear
  | queryClicked _ _ | toggleDbClicked _ => exact .inl ⟨rfl, rfl, rfl⟩
  | foreignInsert time x y z => exact .inr ⟨(time, x, y, z), rfl, .inr ⟨rfl, rfl⟩⟩

theorem Logged.concat (hopen : P.isOpen = true) {acts : List (Action T)} {c : Console T}
    (h : Logged P acts c.events.rows) {a : Action T} (ha : a.Recorded P)
    (hclear : a.clears = false) : Logged P (acts ++ [a]) (c.apply P a).events.rows := by
  obtain ⟨before, since, hrows, hlive, hlength⟩ := h
  rw [Logged, events_apply, live_concat hclear, foreignRows_concat hclear]
  rcases stored_cases hopen ha hclear with ⟨hstored, hdrawn, hforeign⟩ | ⟨r, hstored, hdrawn⟩
  · rw [hstored, hdrawn, hforeign]
    refine ⟨before, since, hrows, ?_, ?_⟩
    · rwa [Option.toList_none, List.append_nil]
    · rwa [Option.toList_none, List.append_nil]
  · rw [hstored]
    refine ⟨before, since ++ [⟨c.events.lastId + 1, r.1, r.2.1, r.2.2.1, r.2.2.2⟩], ?_, ?_⟩
    · rw [← List.append_assoc, ← hrows]
      rfl
    · rw [List.map_append, List.length_append, hlength]
      rcases hdrawn with ⟨hdrawn, hforeign⟩ | ⟨hdrawn, hforeign⟩
      · rw [hdrawn, hforeign, Option.toList_some]
        refine ⟨hlive.append (List.Sublist.refl _), ?_⟩
        rw [if_neg Bool.false_ne_true, List.length_append, List.length_singleton,
          List.length_singleton]
        omega
      · rw [hdrawn, hforeign, Option.toList_none, List.append_nil]
        exact ⟨hlive.trans (List.sublist_append_left _ _), rfl⟩

theorem logged_exec (hopen : P.isOpen = true) (e : EventTable T) {acts : List (Action T)}
    (hacts : ∀ a ∈ sinceClear acts, a.Recorded P) : Logged P acts (exec P e acts).events.rows := by
  induction acts using List.reverseRecOn with
  | nil => exact ⟨e.rows, [], (List.append_nil _).symm, List.nil_sublist _, rfl⟩
  | append_singleton acts a ih =>
    rw [exec_concat]
    cases hclear : a.clears with
    | false =>
      rw [sinceClear_concat hclear] at hacts
      exact (ih fun b hb => hacts b (List.mem_append_left _ hb)).concat hopen
        (hacts a (List.mem_append_right _ (List.mem_singleton_self a))) hclear
    | true =>
      obtain rfl : a = .clearClicked := by
        cases a <;> first | rfl | cases hclear
      rw [Logged, live, foreignRows, sinceClear_clear]
      exact ⟨_, [], (List.append_nil _).symm, List.nil_sublist _, rfl⟩

/-! ### The overlay -/

/-- The overlay shows the last hundred rows. -/
structure Report (rows : List (Record T)) (c : Console T) : Prop where
  points : c.dbPoints = (rows.map Record.point).rtake 100
  red : c.seriesDbRed = c.dbPoints.filter fun p => decide (p.z ≤ ieee.float 0.4)
  yellow : c.seriesDbYellow =
    c.dbPoints.filter fun p => decide (ieee.float 0.4 < p.z ∧ p.z ≤ ieee.float 0.7)
  blue : c.seriesDbBlue = c.dbPoints.filter fun p => decide (ieee.float 0.7 < p.z)

/-- The points of the view are among those of the overlay, in the same order and colour. -/
structure Included (g : Tab3DGraph) (c : Console T) : Prop where
  points : g.points.Sublist c.dbPoints
  red : g.seriesRed.Sublist c.seriesDbRed
  yellow : g.seriesYellow.Sublist c.seriesDbYellow
  blue : g.seriesBlue.Sublist c.seriesDbBlue

theorem report_refreshDbOverlay (hopen : P.isOpen = true) (c : Console T) :
    Report c.events.rows (c.refreshDbOverlay P true) := by
  have hpoints : c.fetchRecentFromDb P 100 true = (c.events.rows.map Record.point).rtake 100 := by
    rw [Console.fetchRecentFromDb, hopen, if_pos (Bool.and_self true), EventTable.selectRecent_eq,
      List.map_reverse, List.reverse_reverse, List.rtake, List.rtake, List.map_drop, List.map_map,
      List.length_map, List.length_map]
    rfl
  refine ⟨hpoints, rfl, ?_, ?_⟩
  · exact List.filter_congr fun p _ => not_isRed_and_isYellow p
  · refine List.filter_congr fun p hp => (not_isRed_and_not_isYellow_iff p).mpr ?_
    rw [hpoints] at hp
    obtain ⟨r, -, rfl⟩ := List.mem_map.mp (List.mem_of_mem_drop hp)
    exact normalize_z_ne_nan Number.noConfusion

/-- Only the button of the overlay changes what it shows. -/
theorem Report.apply {rows : List (Record T)} {c : Console T} (h : Report rows c) {a : Action T}
    (ha : a.toggles = false) : Report rows (c.apply P a) := by
  cases a with
  | recvLine line now execution =>
    rw [Console.apply]
    cases onRecvLine P.toDouble line <;> exact ⟨h.points, h.red, h.yellow, h.blue⟩
  | queryClicked now executed =>
    rw [Console.apply, Console.loadSnapshotAndRender]
    split <;> exact ⟨h.points, h.red, h.yellow, h.blue⟩
  | toggleDbClicked executed => cases ha
  | clearClicked => exact ⟨h.points, h.red, h.yellow, h.blue⟩
  | foreignInsert time x y z => exact ⟨h.points, h.red, h.yellow, h.blue⟩

theorem Report.foldl {rows : List (Record T)} {c : Console T} (h : Report rows c)
    {acts : List (Action T)} (hacts : ∀ a ∈ acts, a.toggles = false) :
    Report rows (acts.foldl (Console.apply P) c) := by
  induction acts generalizing c with
  | nil => exact h
  | cons a acts ih =>
    exact ih (h.apply (hacts a (List.mem_cons_self ..)))
      fun b hb => hacts b (List.mem_cons_of_mem _ hb)

/-- The overlay has room for seventy rows of others. -/
theorem included_of_logged {acts : List (Action T)} {rows : List (Record T)} {c : Console T}
    {g : Tab3DGraph} (hg : Drawn (live P acts) g) (hrows : Logged P acts rows)
    (hforeign : foreignRows acts ≤ 70) (hc : Report rows c) : Included g c := by
  obtain ⟨before, since, rfl, hlive, hlength⟩ := hrows
  have hpoints : g.points.Sublist c.dbPoints := by
    rw [hg.points, hc.points, List.map_append]
    refine (rtake_sublist_rtake hlive ?_).trans (rtake_suffix_rtake_append 100 _ _).sublist
    rw [List.length_map, hlength, maxPoints]
    omega
  refine ⟨hpoints, ?_, ?_, ?_⟩
  · rw [hg.red, hc.red]
    exact hpoints.filter _
  · rw [hg.yellow, hc.yellow]
    exact hpoints.filter _
  · rw [hg.blue, hc.blue]
    exact hpoints.filter _

/-- **The past report** that is switched on after any run shows the last hundred rows, in three
colours, until the button is pressed again, and what was stored before stays stored. Where every
detection since the view was emptied was stored as it was drawn, with no more than seventy rows of
others, all that the view shows is in the report. -/
theorem overlay_spec (P : Platform T) (hopen : P.isOpen = true) (e : EventTable T)
    (acts later : List (Action T)) (hoff : (exec P e acts).dbOverlayOn = false)
    (hlater : ∀ a ∈ later, a.toggles = false) :
    let before := exec P e acts
    let after := exec P e (acts ++ .toggleDbClicked true :: later)
    e.rows <+: before.events.rows ∧ before.events.rows <+: after.events.rows ∧
      Report before.events.rows after ∧
      ((∀ a ∈ sinceClear acts, a.Recorded P) → foreignRows acts ≤ 70 →
        Included before.graph after) := by
  intro before after
  have hafter : after = later.foldl (Console.apply P) (before.apply P (.toggleDbClicked true)) :=
    exec_append P e acts _
  have htoggle : Report before.events.rows (before.apply P (.toggleDbClicked true)) := by
    rw [Console.apply, hoff, Console.onToggleDbOverlay]
    exact report_refreshDbOverlay hopen { before with dbOverlayOn := true }
  have hreport : Report before.events.rows after := by
    rw [hafter]
    exact htoggle.foldl hlater
  refine ⟨rows_extended (.start e) acts, ?_, hreport, fun hacts hforeign => ?_⟩
  · rw [hafter]
    exact (rows_extended_apply before _).trans (rows_extended _ later)
  · exact included_of_logged (drawn_exec e acts) (logged_exec hopen e hacts) hforeign hreport

/-- Times are numbers; rows of the same time stay in the order of their ids. -/
def sqlite : Platform ℕ where
  isOpen := true
  toDouble := decimalNumber
  number := id
  orderByTime l := l.mergeSort fun r r' => decide (r.time ≤ r'.time)
  orderByTime_perm l := List.mergeSort_perm l _
  orderByTime_sorted l := by
    refine (List.pairwise_mergeSort (fun a b c hab hbc => ?_) (fun a b => ?_) l).imp
      of_decide_eq_true
    · exact decide_eq_true (le_trans (of_decide_eq_true hab) (of_decide_eq_true hbc))
    · rw [Bool.or_eq_true, decide_eq_true_iff, decide_eq_true_iff]
      exact le_total a.time b.time

/-- Two detections with the row of another connection between them. -/
def exampleActions : List (Action ℕ) :=
  [.recvLine (bytes "[RASPBERRYPI]1@2@1@drone") 5 .inserted, .foreignInsert 6 3 4 1,
    .recvLine (bytes "[RASPBERRYPI]2@2@0@drone") 7 (.mismatch true)]

def emptyTable : EventTable ℕ := ⟨[], 0, .nil, List.forall_mem_nil _⟩

theorem overlay_spec_witness :
    Included (exec sqlite emptyTable exampleActions).graph
      (exec sqlite emptyTable (exampleActions ++ .toggleDbClicked true :: [.clearClicked])) := by
  have hspec := overlay_spec sqlite rfl emptyTable exampleActions [.clearClicked] (by rfl)
    (by decide)
  refine hspec.2.2.2 (fun a ha => ?_) (by decide)
  have hmem := (List.rtakeWhile_suffix _ _).subset ha
  simp only [exampleActions, List.mem_cons, List.not_mem_nil, or_false] at hmem
  rcases hmem with rfl | rfl | rfl
  · exact fun d _ => .inl rfl
  · trivial
  · exact fun d _ => .inr ⟨rfl, rfl, rfl, rfl⟩

/-! ### The page of the database -/

/-- The rows are stamped with the times of the actions, in this order. -/
theorem times_sublist (e : EventTable T) (acts : List (Action T)) :
    ((exec P e acts).events.rows.map Record.time).Sublist
      (e.rows.map Record.time ++ acts.filterMap Action.time?) := by
  induction acts using List.reverseRecOn with
  | nil =>
    rw [List.filterMap_nil, List.append_nil]
    exact List.Sublist.refl _
  | append_singleton acts a ih =>
    have htime : ∀ r, a.stored P = some r → a.time? = some r.1 := fun r hr => by
      cases a with
      | recvLine line now execution =>
        rw [Action.stored] at hr
        obtain ⟨d, -, hr⟩ := Option.bind_eq_some_iff.mp hr
        split at hr
        · split at hr <;> cases hr <;> rfl
        · cases hr
      | queryClicked _ _ | toggleDbClicked _ | clearClicked => cases hr
      | foreignInsert time x y z =>
        cases hr
        rfl
    rw [exec_concat, events_apply, filterMap_concat, ← List.append_assoc]
    cases h : a.stored P with
    | none => exact ih.trans (List.sublist_append_left _ _)
    | some r =>
      rw [htime r h, Option.map_some, Option.getD_some]
      change (List.map Record.time (_ ++ _)).Sublist _
      rw [List.map_append]
      exact ih.append (List.Sublist.refl _)

theorem dbTable_apply (c : Console T) {a : Action T} (ha : a.queries = false) :
    (c.apply P a).dbTable = c.dbTable := by
  cases a with
  | recvLine line now execution =>
    rw [Console.apply]
    cases onRecvLine P.toDouble line <;> rfl
  | queryClicked now executed => cases ha
  | toggleDbClicked executed =>
    rw [Console.apply, Console.onToggleDbOverlay]
    dsimp only
    split <;> rfl
  | clearClicked => rfl
  | foreignInsert time x y z => rfl

theorem dbTable_foldl (c : Console T) {acts : List (Action T)}
    (hacts : ∀ a ∈ acts, a.queries = false) :
    (acts.foldl (Console.apply P) c).dbTable = c.dbTable := by
  induction acts generalizing c with
  | nil => rfl
  | cons a acts ih =>
    rw [List.foldl_cons, ih _ fun b hb => hacts b (List.mem_cons_of_mem _ hb),
      dbTable_apply c (hacts a (List.mem_cons_self ..))]

/-- **The page** that is read after any run shows the rows up to the present in the order of time,
until it is read again. While the clock never goes back, these are all the rows that were stored,
and in the order of their ids if no time occurs twice. -/
theorem table_spec (P : Platform T) (hopen : P.isOpen = true) (e : EventTable T)
    (acts later : List (Action T)) (now : T) (hlater : ∀ a ∈ later, a.queries = false) :
    let rows := (exec P e acts).events.rows
    let shown := (exec P e (acts ++ .queryClicked now true :: later)).dbTable
    let clock := e.rows.map Record.time ++ acts.filterMap Action.time? ++ [now]
    shown.Perm (rows.filter fun r => decide (r.time ≤ now)) ∧
      shown.Pairwise (fun r r' => r.time ≤ r'.time) ∧
      (clock.Pairwise (· ≤ ·) → shown.Perm rows) ∧ (clock.Pairwise (· < ·) → shown = rows) := by
  intro rows shown clock
  have hshown : shown = P.orderByTime (rows.filter fun r => decide (r.time ≤ now)) := by
    change (exec P e _).dbTable = _
    rw [exec_append, List.foldl_cons, dbTable_foldl _ hlater, Console.apply,
      Console.loadSnapshotAndRender, hopen, if_pos (Bool.and_self true)]
  have hclock : (rows.map Record.time ++ [now]).Sublist clock :=
    (times_sublist e acts).append (List.Sublist.refl _)
  have hperm := P.orderByTime_perm (rows.filter fun r => decide (r.time ≤ now))
  have hsorted := P.orderByTime_sorted (rows.filter fun r => decide (r.time ≤ now))
  rw [← hshown] at hperm hsorted
  -- no row is left out as long as the clock does not go back
  have hall : clock.Pairwise (· ≤ ·) → (rows.filter fun r => decide (r.time ≤ now)) = rows := by
    intro hle
    refine List.filter_eq_self.mpr fun r hr => decide_eq_true ?_
    exact (List.pairwise_append.mp (hle.sublist hclock)).2.2 _ (List.mem_map_of_mem hr) _
      (List.mem_singleton_self now)
  refine ⟨hperm, hsorted, fun hle => ?_, fun hlt => ?_⟩
  · rwa [hall hle] at hperm
  · rw [hall (hlt.imp le_of_lt)] at hperm
    have htimes := List.pairwise_map.mp (List.pairwise_append.mp (hlt.sublist hclock)).1
    have hnodup : (rows.map Record.time).Nodup := List.pairwise_map.mpr (htimes.imp ne_of_lt)
    refine @List.Perm.eq_of_pairwise _ (fun r r' => r.time ≤ r'.time) _ _
      (fun r r' hr hr' h h' => ?_) hsorted (htimes.imp le_of_lt) hperm
    exact List.inj_on_of_nodup_map hnodup (hperm.subset hr) hr' (le_antisymm h h')

theorem table_spec_witness :
    (exec sqlite emptyTable (exampleActions ++ .queryClicked 8 true :: [.clearClicked])).dbTable =
      (exec sqlite emptyTable exampleActions).events.rows :=
  (table_spec sqlite rfl emptyTable exampleActions [.clearClicked] 8 (by decide)).2.2.2 (by decide)

end Live

end Gui

end DroneTurret
