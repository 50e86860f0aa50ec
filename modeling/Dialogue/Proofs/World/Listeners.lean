import Mathlib.Data.List.Perm.Subperm
import Dialogue.Proofs.World.Store

/-! What persisting texts changes in a world, whatever the listeners do, and what exactly is changed
when the listeners only listen. -/

namespace Dialogue

/-- Worlds between which texts have been persisted in a localization. Its runtime texts, its
listeners and what has been heard may differ in any way. -/
structure World.Persisted (id : LocalizationId) (lines : List (Scalar × Value))
    (w v : World) : Prop where
  projects : v.projects = w.projects
  files : v.files = w.files
  size : v.localizations.size = w.localizations.size
  other : ∀ k, k ≠ id → v.localization k = w.localization k
  self : v.localization id = { w.localization id with
    texts := lines.foldl (fun t e => Table.put t e.1 e.2) (w.localization id).texts
    runtime := (v.localization id).runtime
    listeners := (v.localization id).listeners }

namespace World.Persisted

variable {id : LocalizationId} {xs ys : List (Scalar × Value)} {w v u : World}

theorem refl (id : LocalizationId) (w : World) : w.Persisted id [] w :=
  ⟨rfl, rfl, rfl, fun _ _ => rfl, rfl⟩

theorem trans (h : w.Persisted id xs v) (h' : v.Persisted id ys u) :
    w.Persisted id (xs ++ ys) u where
  projects := h'.projects.trans h.projects
  files := h'.files.trans h.files
  size := h'.size.trans h.size
  other k hk := (h'.other k hk).trans (h.other k hk)
  self := by
    rw [List.foldl_append, h'.self, h.self]

theorem setLocalization (hid : id < w.localizations.size) {l : Localization}
    (h : l = { w.localization id with
      texts := xs.foldl (fun t e => Table.put t e.1 e.2) (w.localization id).texts
      runtime := l.runtime
      listeners := l.listeners }) : w.Persisted id xs (w.setLocalization id l) where
  projects := rfl
  files := rfl
  size := w.size_setLocalization id l
  other _ hk := w.localization_setLocalization_of_ne hk l
  self := by rwa [w.localization_setLocalization_self hid]

end World.Persisted

namespace Action

variable {id : LocalizationId} {w v : World}

/-! ## Any listeners -/

/-- A listener leaves the persisted texts alone, whether it fails or not. -/
theorem keeps_react (hid : id < w.localizations.size) (listener : Listener) :
    Keeps (w.Persisted id []) (react id listener) := by
  have hset : ∀ {v : World} {l : Localization}, w.Persisted id [] v →
      l = { v.localization id with runtime := l.runtime, listeners := l.listeners } →
      w.Persisted id [] (v.setLocalization id l) := fun hv hl =>
    hv.trans (.setLocalization (by rwa [hv.size]) (by simpa using hl))
  refine Keeps.bind (fun v hv => hv.trans ⟨rfl, rfl, rfl, fun _ _ => rfl, rfl⟩) fun _ => ?_
  cases listener.reaction with
  | nothing => exact Keeps.pure _
  | fail => exact Keeps.throw _
  | overlay => exact fun v hv => hset hv rfl
  -- The listener may have left before; then it fails and nothing is changed.
  | leave =>
      intro v hv
      rw [exec_bind_of_ok (exec_localization v id)]
      cases hleft : (v.localization id).removeListener listener.name with
      | error e => rwa [exec_bind_of_error (exec_ofExcept _ _)]
      | ok l =>
          rw [exec_bind_of_ok (exec_ofExcept _ _), exec_updateLocalization]
          rw [Localization.removeListener] at hleft
          split at hleft
          · exact hset hv (by rw [← Except.ok.inj hleft])
          · cases hleft

theorem keeps_notify (hid : id < w.localizations.size) (listeners : List Listener) :
    Keeps (w.Persisted id []) (notify id listeners) := by
  induction listeners with
  | nil => exact Keeps.pure _
  | cons listener rest ih => exact Keeps.bind (keeps_react hid listener) fun _ => ih

theorem persistText_eq_ok {line : Scalar} {text : Value} (hid : id < w.localizations.size)
    (h : (persistText id line text).exec w = (.ok (), v)) : w.Persisted id [(line, text)] v := by
  rw [persistText, exec_bind_of_ok (exec_updateLocalization _ _ _),
    exec_bind_of_ok (exec_localization _ _)] at h
  have hstored : w.Persisted id [(line, text)]
      (w.setLocalization id ((w.localization id).storeText line text)) :=
    .setLocalization hid rfl
  have hnotified := keeps_notify (by rwa [hstored.size])
    ((w.setLocalization id ((w.localization id).storeText line text)).localization id).listeners
    _ (.refl id _)
  rw [h] at hnotified
  exact hstored.trans hnotified

theorem persistTexts_eq_ok {lines : List (Scalar × Value)} (hid : id < w.localizations.size)
    (h : (persistTexts id lines).exec w = (.ok (), v)) : w.Persisted id lines v := by
  induction lines generalizing w with
  | nil =>
      cases h
      exact .refl id _
  | cons line rest ih =>
      obtain ⟨_, u, hline, hrest⟩ := exec_bind_eq_ok.mp h
      have hu := persistText_eq_ok hid hline
      exact hu.trans (ih (by rwa [hu.size]) hrest)

/-! ## Listeners that only listen -/

theorem exec_notify_of_passive {listeners : List Listener}
    (h : ∀ l ∈ listeners, l.reaction = .nothing) (w : World) :
    (notify id listeners).exec w = (.ok (), { w with journal := { w.journal with
      events := w.journal.events ++ listeners.map fun l => (l, id) } }) := by
  induction listeners generalizing w with
  | nil => simp [notify]
  | cons l rest ih =>
      have hreact : (react id l).exec w = (.ok (), { w with journal := { w.journal with
          events := w.journal.events ++ [(l, id)] } }) := by
        rw [react, exec_bind_of_ok (exec_updateJournal _ _), h l (by simp)]
        rfl
      rw [notify, exec_bind_of_ok hreact, ih fun l' hl' => h l' (by simp [hl'])]
      simp

theorem exec_persistText_of_passive (hid : id < w.localizations.size)
    (h : ∀ l ∈ (w.localization id).listeners, l.reaction = .nothing) (line : Scalar)
    (text : Value) :
    ∃ u, (persistText id line text).exec w = (.ok (), u) ∧
      u.localizations.size = w.localizations.size ∧
      u.localization id = (w.localization id).storeText line text ∧
      u.journal.events =
        w.journal.events ++ (w.localization id).listeners.map fun l => (l, id) := by
  let stored := w.setLocalization id ((w.localization id).storeText line text)
  have hstored : stored.localization id = (w.localization id).storeText line text :=
    w.localization_setLocalization_self hid _
  refine ⟨{ stored with
      journal := { w.journal with
        events := w.journal.events ++ (w.localization id).listeners.map fun l => (l, id) } },
    ?_, by simp [stored], hstored, rfl⟩
  rw [persistText, exec_bind_of_ok (exec_updateLocalization _ _ _),
    exec_bind_of_ok (exec_localization _ _)]
  change (notify id (stored.localization id).listeners).exec stored = _
  rw [hstored]
  exact exec_notify_of_passive h stored

theorem exec_persistTexts_of_passive (lines : List (Scalar × Value))
    (hid : id < w.localizations.size)
    (h : ∀ l ∈ (w.localization id).listeners, l.reaction = .nothing) :
    ∃ v, (persistTexts id lines).exec w = (.ok (), v) ∧
      (v.localization id).runtime = (w.localization id).runtime ∧
      v.journal.events = w.journal.events ++
        lines.flatMap fun _ => (w.localization id).listeners.map fun l => (l, id) := by
  induction lines generalizing w with
  | nil => exact ⟨w, rfl, rfl, by simp⟩
  | cons line rest ih =>
      obtain ⟨u, hline, hsize, hu, hheard⟩ := exec_persistText_of_passive hid h line.1 line.2
      have hlisteners : (u.localization id).listeners = (w.localization id).listeners := by
        rw [hu, Localization.storeText]
      obtain ⟨v, hrest, hruntime, hevents⟩ := ih (by rwa [hsize]) (by rwa [hlisteners])
      refine ⟨v, ?_, ?_, ?_⟩
      · rw [persistTexts, exec_bind_of_ok hline]
        exact hrest
      · rw [hruntime, hu, Localization.storeText]
      · rw [hevents, hheard, hlisteners, List.flatMap_cons, List.append_assoc]

/-! ## Listeners that fail -/

def FailureOf (listeners : List Listener) (e : Fault) : Prop :=
  ∃ l ∈ listeners, l.reaction = .fail ∧ e = .listener l.name

/-- Worlds between which listeners of a localization may have left. -/
structure Left (id : LocalizationId) (w v : World) : Prop where
  size : v.localizations.size = w.localizations.size
  listeners : (v.localization id).listeners ⊆ (w.localization id).listeners

theorem Left.refl (id : LocalizationId) (w : World) : Left id w w :=
  ⟨rfl, fun _ h => h⟩

theorem Left.trans {u : World} (h : Left id w v) (h' : Left id v u) : Left id w u :=
  ⟨h'.size.trans h.size, fun _ hl => h.listeners (h'.listeners hl)⟩

theorem Left.setLocalization (hid : id < w.localizations.size) {l : Localization}
    (hl : l.listeners ⊆ (w.localization id).listeners) : Left id w (w.setLocalization id l) :=
  ⟨w.size_setLocalization id l, by rwa [w.localization_setLocalization_self hid]⟩

theorem FailureOf.mono {listeners listeners' : List Listener} (h : listeners ⊆ listeners')
    {e : Fault} (he : FailureOf listeners e) : FailureOf listeners' e :=
  let ⟨l, hl, hfail⟩ := he
  ⟨l, h hl, hfail⟩

def listenerNames (id : LocalizationId) (w : World) : List String :=
  (w.localization id).listeners.map Listener.name

theorem listenerNames_setLocalization (hid : id < w.localizations.size) (l : Localization) :
    listenerNames id (w.setLocalization id l) = l.listeners.map Listener.name := by
  rw [listenerNames, w.localization_setLocalization_self hid]

/-- A listener that is told of a change fails, or it takes at most its own name off the list. -/
theorem endsIn_react {listener : Listener} (hid : id < w.localizations.size)
    (hname : listener.name ∈ listenerNames id w) :
    EndsIn (fun v => Left id w v ∧ (listenerNames id v = listenerNames id w ∨
      listenerNames id v = (listenerNames id w).erase listener.name))
      (FailureOf [listener]) (react id listener) w := by
  let heard : World := { w with journal := { w.journal with
    events := w.journal.events ++ [(listener, id)] } }
  have hset : ∀ l : Localization, l.listeners ⊆ (w.localization id).listeners →
      Left id w (heard.setLocalization id l) := fun l hl =>
    ⟨w.size_setLocalization id l, by rwa [heard.localization_setLocalization_self hid]⟩
  rw [react, EndsIn, exec_bind_of_ok (exec_updateJournal _ _)]
  cases hreaction : listener.reaction with
  | nothing => exact ⟨⟨rfl, fun _ h => h⟩, .inl rfl⟩
  | fail => exact ⟨listener, by simp, hreaction, rfl⟩
  | overlay =>
      refine ⟨hset _ fun _ h => h, .inl ?_⟩
      exact listenerNames_setLocalization (w := heard) hid _
  | leave =>
      let left : Localization := { w.localization id with
        listeners := (w.localization id).listeners.eraseP fun x => x.name = listener.name }
      have hleft : (heard.localization id).removeListener listener.name = .ok left := by
        rw [Localization.removeListener, if_pos]
        · rfl
        · obtain ⟨x, hx, hxname⟩ := List.mem_map.mp hname
          exact List.any_eq_true.mpr ⟨x, hx, by simpa using hxname⟩
      dsimp only
      rw [exec_bind_of_ok (exec_localization _ _), hleft]
      refine ⟨hset left fun _ h => List.mem_of_mem_eraseP h, .inr ?_⟩
      rw [listenerNames_setLocalization (w := heard) hid, listenerNames, List.erase_eq_eraseP',
        List.eraseP_map]
      rfl

/-- Of the listeners that are told of a change one fails, or all return: one that leaves is still
registered in its turn, since those before it have taken off no more than their own names. -/
theorem endsIn_notify {listeners : List Listener} (hid : id < w.localizations.size)
    (hnames : (listeners.map Listener.name).Subperm (listenerNames id w)) :
    EndsIn (Left id w) (FailureOf listeners) (notify id listeners) w := by
  induction listeners generalizing w with
  | nil => exact .refl id w
  | cons listener rest ih =>
      have hname : listener.name ∈ listenerNames id w := hnames.subset (by simp)
      have hfailure : ∀ e, FailureOf [listener] e → FailureOf (listener :: rest) e :=
        fun _ => FailureOf.mono (by simp)
      have hreact := (endsIn_react hid hname).mono (fun _ hu => hu) hfailure
      refine hreact.bind fun _ u ⟨hu, hleft⟩ => ?_
      have hrest : (rest.map Listener.name).Subperm (listenerNames id u) := by
        rcases hleft with hsame | herased
        · rw [hsame]
          exact (List.sublist_cons_self _ _).subperm.trans hnames
        · rw [herased]
          simpa using hnames.erase listener.name
      exact (ih (by rwa [hu.size]) hrest).mono (fun _ => hu.trans) fun _ => FailureOf.mono (by simp)

theorem endsIn_persistTexts (lines : List (Scalar × Value)) (hid : id < w.localizations.size) :
    EndsIn (Left id w) (FailureOf (w.localization id).listeners) (persistTexts id lines) w := by
  induction lines generalizing w with
  | nil => exact .refl id w
  | cons line rest ih =>
      let stored := w.setLocalization id ((w.localization id).storeText line.1 line.2)
      have hleft : Left id w stored := .setLocalization hid fun _ h => h
      have hline : EndsIn (Left id w) (FailureOf (w.localization id).listeners)
          (persistText id line.1 line.2) w := by
        rw [persistText, EndsIn, exec_bind_of_ok (exec_updateLocalization _ _ _),
          exec_bind_of_ok (exec_localization _ _)]
        exact (endsIn_notify (by rwa [hleft.size]) (.refl _)).mono (fun _ => hleft.trans)
          fun _ => FailureOf.mono hleft.listeners
      refine hline.bind fun _ u hu => ?_
      exact (ih (by rwa [hu.size])).mono (fun _ => hu.trans) fun _ => FailureOf.mono hu.listeners

/-- No listener that has been told of a change has failed. -/
theorem noFailure_of_notify {listeners : List Listener}
    (h : (notify id listeners).exec w = (.ok (), v)) : ∀ l ∈ listeners, l.reaction ≠ .fail := by
  induction listeners generalizing w with
  | nil => simp
  | cons listener rest ih =>
      obtain ⟨_, u, hreact, hrest⟩ := exec_bind_eq_ok.mp h
      rintro l (_ | ⟨_, hl⟩)
      · intro hfail
        rw [react, exec_bind_of_ok (exec_updateJournal _ _), hfail] at hreact
        cases hreact
      · exact ih hrest l hl

/-- Where texts have been persisted no listener fails. -/
theorem noFailure_of_persistTexts {lines : List (Scalar × Value)}
    (hid : id < w.localizations.size) (hlines : lines ≠ [])
    (h : (persistTexts id lines).exec w = (.ok (), v)) :
    ∀ l ∈ (w.localization id).listeners, l.reaction ≠ .fail := by
  cases lines with
  | nil => exact absurd rfl hlines
  | cons line rest =>
      obtain ⟨_, u, hline, -⟩ := exec_bind_eq_ok.mp h
      rw [persistText, exec_bind_of_ok (exec_updateLocalization _ _ _),
        exec_bind_of_ok (exec_localization _ _), w.localization_setLocalization_self hid] at hline
      exact noFailure_of_notify hline

end Action

end Dialogue
