import Dialogue.Proofs.Localization.Chronicle
import Dialogue.Proofs.World.Listeners

/-! Persisting texts as a list of deeds: each text is stored, and the listeners that are registered
by then are called in order, up to the first that fails. -/

namespace Dialogue

namespace Listener

def fails (l : Listener) : Bool :=
  l.reaction = .fail

/-- A listener that does not call back: it may fail. -/
def Quiet (l : Listener) : Prop :=
  l.reaction = .nothing ∨ l.reaction = .fail

end Listener

/-! ## Deeds -/

/-- What calling a listener leads to: it is told, and may take itself off or add a text. -/
def Listener.answer (l : Listener) : List Deed :=
  .tell l ::
    match l.reaction with
    | .leave => [.dismiss l.name]
    | .overlay => [.overlay "overlay" (.text l.name)]
    | _ => []

/-- What a round of calls leads to. A listener that fails ends it. -/
def telling : List Listener → List Deed
  | [] => []
  | l :: rest => l.answer ++ if l.fails then [] else telling rest

/-- What persisting texts leads to. The first failure of a listener ends it. -/
def persisting (listeners : List Listener) : List (String × Value) → List Deed
  | [] => []
  | (line, text) :: rest =>
    let deeds := .store line text :: telling listeners
    if listeners.any Listener.fails then deeds
    else deeds ++ persisting (registered listeners deeds) rest

/-- What a round of calls comes to: the fault of the first listener that fails. -/
def alarm (listeners : List Listener) : Except Fault Unit :=
  match listeners.find? Listener.fails with
  | some l => .error (.listener l.name)
  | none => .ok ()

def keyed (ws : List (String × Value)) : List (Scalar × Value) :=
  ws.map fun e => (Scalar.text e.1, e.2)

def told (h : List Deed) : List Listener :=
  h.filterMap fun
    | .tell l => some l
    | _ => none

/-- The world when deeds have been done to a localization. -/
def World.after (w : World) (id : LocalizationId) (h : List Deed) : World :=
  { w.setLocalization id (replay (w.localization id) h) with
    journal := { w.journal with events := w.journal.events ++ (told h).map fun l => (l, id) } }

/-! ## Failures -/

theorem alarm_cons (l : Listener) (rest : List Listener) :
    alarm (l :: rest) = if l.fails then .error (.listener l.name) else alarm rest := by
  rw [alarm, List.find?_cons]
  cases l.fails <;> rfl

theorem alarm_eq_ok {ls : List Listener} (h : ls.any Listener.fails = false) :
    alarm ls = .ok () := by
  have hnone : ls.find? Listener.fails = none := by
    rw [List.find?_eq_none]
    simpa using h
  rw [alarm, hnone]

theorem exists_alarm {ls : List Listener} (h : ls.any Listener.fails = true) :
    ∃ e, alarm ls = .error e := by
  obtain ⟨l, hl⟩ := Option.isSome_iff_exists.mp (List.find?_isSome.mpr (List.any_eq_true.mp h))
  exact ⟨_, by rw [alarm, hl]⟩

/-- No listener is registered by a round of calls. -/
theorem enrol_not_mem_telling (ls : List Listener) (l : Listener) : .enrol l ∉ telling ls := by
  induction ls with
  | nil => exact List.not_mem_nil
  | cons l' rest ih =>
      have hanswer : .enrol l ∉ l'.answer := by
        rw [Listener.answer]
        cases l'.reaction <;> simp
      rw [telling, List.mem_append, not_or]
      refine ⟨hanswer, ?_⟩
      cases l'.fails
      · exact ih
      · exact List.not_mem_nil

theorem registered_telling_subset (ls rest : List Listener) :
    registered ls (telling rest) ⊆ ls := fun l hl =>
  (mem_registered hl).resolve_right (enrol_not_mem_telling rest l)

/-- A listener that is called takes at most its own name off the list. -/
theorem names_registered_answer (ls : List Listener) (l : Listener) :
    (registered ls l.answer).map Listener.name = ls.map Listener.name ∨
      (registered ls l.answer).map Listener.name = (ls.map Listener.name).erase l.name := by
  rw [Listener.answer]
  cases l.reaction with
  | nothing | overlay | fail => exact .inl rfl
  | leave =>
      right
      rw [List.erase_eq_eraseP', List.eraseP_map]
      rfl

/-! ## Worlds -/

namespace World

variable {w : World} {id : LocalizationId}

theorem setLocalization_localization (w : World) (id : LocalizationId) :
    w.setLocalization id (w.localization id) = w := by
  have hlocalizations : w.localizations.setIfInBounds id (w.localization id) = w.localizations := by
    apply Array.ext
    · simp
    · intro i hi hi'
      rw [Array.getElem_setIfInBounds]
      split
      · subst id
        simp [localization, hi']
      · rfl
  rw [setLocalization, hlocalizations]

@[simp] theorem size_after (w : World) (id : LocalizationId) (h : List Deed) :
    (w.after id h).localizations.size = w.localizations.size :=
  w.size_setLocalization id _

theorem localization_after (hid : id < w.localizations.size) (h : List Deed) :
    (w.after id h).localization id = replay (w.localization id) h :=
  w.localization_setLocalization_self hid _

theorem after_after (hid : id < w.localizations.size) (h h' : List Deed) :
    (w.after id h).after id h' = w.after id (h ++ h') := by
  rw [after, localization_after hid]
  simp [after, told, setLocalization]

/-- Without calls nothing but the localization is changed. -/
theorem after_of_told {h : List Deed} (htold : told h = []) :
    w.after id h = w.setLocalization id (replay (w.localization id) h) := by
  rw [after, htold]
  simp [setLocalization]

theorem after_singleton (w : World) (id : LocalizationId) (d : Deed) (hd : d.isTell = false) :
    w.after id [d] = w.setLocalization id (d.apply (w.localization id)) := by
  refine after_of_told ?_
  cases d with
  | tell _ => cases hd
  | _ => rfl

theorem after_nil (w : World) (id : LocalizationId) : w.after id [] = w := by
  rw [after_of_told rfl, replay, List.foldl_nil, setLocalization_localization]

theorem listenerNames_after (hid : id < w.localizations.size) (h : List Deed) :
    Action.listenerNames id (w.after id h) =
      (registered (w.localization id).listeners h).map Listener.name := by
  rw [Action.listenerNames, localization_after hid, listeners_replay]

end World

/-! ## Actions -/

namespace Action

variable {w : World} {id : LocalizationId}

theorem exec_react {l : Listener} (hname : l.name ∈ listenerNames id w) :
    (react id l).exec w =
      (if l.fails then .error (.listener l.name) else .ok (), w.after id l.answer) := by
  rw [react, exec_bind_of_ok (exec_updateJournal _ _), Listener.answer, Listener.fails]
  cases hreaction : l.reaction with
  | nothing | fail =>
      rw [World.after, replay, List.foldl_cons, List.foldl_nil, Deed.apply,
        World.setLocalization_localization]
      rfl
  | overlay => rfl
  | leave =>
      let left : Localization := { w.localization id with
        listeners := (w.localization id).listeners.eraseP fun x => x.name = l.name }
      have hleft : (w.localization id).removeListener l.name = .ok left := by
        rw [Localization.removeListener, if_pos]
        obtain ⟨x, hx, hxname⟩ := List.mem_map.mp hname
        exact List.any_eq_true.mpr ⟨x, hx, by simpa using hxname⟩
      dsimp only
      rw [exec_bind_of_ok (exec_localization _ _)]
      change Action.exec (do
        let l ← ofExcept ((w.localization id).removeListener l.name)
        updateLocalization id fun _ => l) _ = _
      rw [hleft]
      rfl

/-- A round of calls, in which each listener is still registered in its turn: those before it have
taken off no more than their own names. -/
theorem exec_notify {ls : List Listener} (hid : id < w.localizations.size)
    (hnames : (ls.map Listener.name).Subperm (listenerNames id w)) :
    (notify id ls).exec w = (alarm ls, w.after id (telling ls)) := by
  induction ls generalizing w with
  | nil => rw [notify, telling, World.after_nil]; rfl
  | cons l rest ih =>
      have hname : l.name ∈ listenerNames id w := hnames.subset (by simp)
      have hreact := exec_react hname
      rw [notify, telling, alarm_cons]
      cases hfails : l.fails with
      | true =>
          rw [hfails] at hreact
          rw [exec_bind_of_error hreact]
          simp
      | false =>
          rw [hfails] at hreact
          have hrest : (rest.map Listener.name).Subperm
            (listenerNames id (w.after id l.answer)) := by
            rw [World.listenerNames_after hid]
            rcases names_registered_answer (w.localization id).listeners l with hsame | herased
            · rw [hsame]
              exact (List.sublist_cons_self _ _).subperm.trans hnames
            · rw [herased]
              simpa [listenerNames] using hnames.erase l.name
          rw [exec_bind_of_ok hreact, ih (by simpa using hid) hrest, World.after_after hid]
          simp

theorem exec_persistText (hid : id < w.localizations.size) (line : String) (text : Value) :
    (persistText id (.text line) text).exec w =
      (alarm (w.localization id).listeners,
        w.after id (.store line text :: telling (w.localization id).listeners)) := by
  have hstored : w.setLocalization id ((w.localization id).storeText (.text line) text) =
      w.after id [.store line text] :=
    (w.after_singleton id (.store line text) rfl).symm
  have hlisteners : ((w.after id [.store line text]).localization id).listeners =
      (w.localization id).listeners := by
    rw [World.localization_after hid, listeners_replay]
    rfl
  rw [persistText, exec_bind_of_ok (exec_updateLocalization _ _ _), hstored,
    exec_bind_of_ok (exec_localization _ _), hlisteners,
    exec_notify (by simpa using hid) (by rw [listenerNames, hlisteners]),
    World.after_after hid]
  rfl

theorem exec_persistTexts (hid : id < w.localizations.size) (ws : List (String × Value)) :
    (persistTexts id (keyed ws)).exec w =
      (if ws.isEmpty then .ok () else alarm (w.localization id).listeners,
        w.after id (persisting (w.localization id).listeners ws)) := by
  induction ws generalizing w with
  | nil =>
      rw [persisting, World.after_nil]
      rfl
  | cons e rest ih =>
      have hline := exec_persistText hid e.1 e.2
      rw [keyed, List.map_cons, persistTexts, persisting]
      cases hfails : (w.localization id).listeners.any Listener.fails with
      | true =>
          obtain ⟨fault, halarm⟩ := exists_alarm hfails
          rw [halarm] at hline ⊢
          exact exec_bind_of_error hline
      | false =>
          let deeds := .store e.1 e.2 :: telling (w.localization id).listeners
          have hlisteners : ((w.after id deeds).localization id).listeners =
              registered (w.localization id).listeners deeds := by
            rw [World.localization_after hid, listeners_replay]
          have hrest : (registered (w.localization id).listeners deeds).any Listener.fails =
            false :=
            List.any_eq_false.mpr fun l hl =>
              List.any_eq_false.mp hfails l (registered_telling_subset _ _ hl)
          rw [alarm_eq_ok hfails] at hline ⊢
          rw [exec_bind_of_ok hline, ← keyed, ih (by simpa using hid), hlisteners,
            alarm_eq_ok hrest, World.after_after hid]
          simp [deeds]

end Action

end Dialogue
