import Dialogue.Proofs.Localization.Requests
import Dialogue.Proofs.World.Sound

/-! Requests in any number, made one after the other, leave a localization that is told by what has
been written, and have called its listeners for the persisted writes alone. -/

namespace Dialogue.Localization

/-! ## Runs of requests -/

def performAll (id : LocalizationId) : List Request → Action (List (Except Fault Unit))
  | [] => return []
  | r :: rest => do
    let outcome ← Action.attempt (r.perform id)
    return outcome :: (← performAll id rest)

def history (listeners : List Listener) : List Request → List Deed
  | [] => []
  | r :: rest =>
    let deeds := r.deeds listeners
    deeds ++ history (registered listeners deeds) rest

/-- Requests come to what their deeds come to, one after the other. -/
theorem exec_performAll {id : LocalizationId} {w : World} (hid : id < w.localizations.size)
    (rs : List Request) :
    ∃ outcomes, (performAll id rs).exec w =
      (.ok outcomes, w.after id (history (w.localization id).listeners rs)) := by
  induction rs generalizing w with
  | nil => exact ⟨[], by rw [history, World.after_nil]; rfl⟩
  | cons r rest ih =>
      let deeds := r.deeds (w.localization id).listeners
      have hlisteners : ((w.after id deeds).localization id).listeners =
          registered (w.localization id).listeners deeds := by
        rw [World.localization_after hid, listeners_replay]
      obtain ⟨outcomes, hrest⟩ := ih (w := w.after id deeds) (by simpa using hid)
      rw [hlisteners, World.after_after hid] at hrest
      refine ⟨r.outcome (w.localization id).listeners :: outcomes, ?_⟩
      rw [performAll, Action.exec_bind_of_ok (Action.exec_attempt _ _), r.exec_perform hid,
        Action.exec_bind_of_ok hrest]
      rfl

/-! ## Calls -/

/-- The listeners that are called for a write, of those that are registered: all up to the first
that fails. -/
def called : List Listener → List Listener
  | [] => []
  | l :: rest => l :: if l.fails then [] else called rest

/-- The calls for the persisted writes of a history, and for nothing else: of the listeners that are
registered at a write, those that it reaches. -/
def due (reached : List Listener → List Listener) (listeners : List Listener) :
    List Deed → List Listener
  | [] => []
  | d :: h => (if d.stored?.isSome then reached listeners else []) ++
      due reached (d.register listeners) h

section Calls

variable (reached : List Listener → List Listener) (ls : List Listener)

theorem due_append (h h' : List Deed) :
    due reached ls (h ++ h') = due reached ls h ++ due reached (registered ls h) h' := by
  induction h generalizing ls with
  | nil => rfl
  | cons d h ih =>
      rw [List.cons_append, due, due, ih, List.append_assoc]
      rfl

theorem due_eq_nil {h : List Deed} (hh : ∀ d ∈ h, d.stored? = none) : due reached ls h = [] := by
  induction h generalizing ls with
  | nil => rfl
  | cons d h ih => rw [due, hh d (by simp), ih _ fun d' hd' => hh d' (by simp [hd'])]; rfl

theorem told_append (h h' : List Deed) : told (h ++ h') = told h ++ told h' :=
  List.filterMap_append

theorem told_eq_nil {h : List Deed} (hh : ∀ d ∈ h, d.isTell = false) : told h = [] := by
  rw [told, List.filterMap_eq_nil_iff]
  intro d hd
  cases d with
  | tell l => cases hh _ hd
  | _ => rfl

theorem stored?_of_mem_telling {d : Deed} (hd : d ∈ telling ls) : d.stored? = none := by
  induction ls with
  | nil => cases hd
  | cons l rest ih =>
      rw [telling, List.mem_append] at hd
      rcases hd with hanswer | hrest
      · rw [Listener.answer] at hanswer
        cases hreaction : l.reaction <;> rw [hreaction] at hanswer <;> simp at hanswer
        all_goals rcases hanswer with rfl | rfl
        all_goals rfl
      · cases hfails : l.fails <;> rw [hfails] at hrest
        · exact ih hrest
        · cases hrest

theorem told_telling : told (telling ls) = called ls := by
  induction ls with
  | nil => rfl
  | cons l rest ih =>
      have hanswer : told l.answer = [l] := by
        rw [Listener.answer]
        cases l.reaction <;> rfl
      rw [telling, told_append, hanswer, called]
      cases l.fails
      · simp [ih]
      · rfl

/-- For a text that is stored those are called that are due, whatever they do. -/
theorem told_stored (line : String) (text : Value) :
    told (.store line text :: telling ls) = due called ls (.store line text :: telling ls) := by
  rw [due, due_eq_nil called _ fun _ hd => stored?_of_mem_telling ls hd, List.append_nil]
  exact told_telling ls

theorem told_persisting (ws : List (String × Value)) :
    told (persisting ls ws) = due called ls (persisting ls ws) := by
  induction ws generalizing ls with
  | nil => rfl
  | cons e rest ih =>
      rw [persisting]
      split
      · exact told_stored ls e.1 e.2
      · rw [told_append, due_append, told_stored, ih]

theorem Request.told_deeds (r : Request) : told (r.deeds ls) = due called ls (r.deeds ls) := by
  cases r with
  | addTextToAsset line text => exact told_stored ls line text
  | addTextsToAsset lines => exact told_persisting ls _
  | addTexts _ | addObjects _ =>
      rw [deeds, told_eq_nil (List.forall_mem_map.mpr fun _ _ => rfl),
        due_eq_nil called ls (List.forall_mem_map.mpr fun _ _ => rfl)]
  | _ => rfl

/-- Listeners are called for what is persisted, and for nothing else. -/
theorem told_history (rs : List Request) :
    told (history ls rs) = due called ls (history ls rs) := by
  induction rs generalizing ls with
  | nil => rfl
  | cons r rest ih => rw [history, told_append, due_append, r.told_deeds, ih]

/-- Calls are due for writes alone. -/
theorem due_filter (h : List Deed) :
    due reached ls (h.filter fun d => !d.isTell) = due reached ls h := by
  induction h generalizing ls with
  | nil => rfl
  | cons d h ih =>
      cases d with
      | tell l => exact ih _
      | _ => rw [List.filter_cons_of_pos (by rfl), due, due, ih]

end Calls

/-! ## Listeners that do not call back -/

namespace Request

/-- All that a request asks for. -/
def wanted : Request → List Deed
  | .addText line text => [.overlay line text]
  | .addTexts lines => (lines.map BulkLine.write).map fun e => .overlay e.1 e.2
  | .addTextToAsset line text => [.store line text]
  | .addTextsToAsset lines => (lines.map BulkLine.write).map fun e => .store e.1 e.2
  | .setObject line asset => [.place line asset]
  | .addObjects objects => objects.entries.map fun e => .place e.1 e.2
  | .clear => [.clear]
  | .listen listener => [.enrol listener]
  | .unlisten name => [.dismiss name]

/-- What has been done of it, with these listeners registered: where one fails, a bulk request ends
with the first text that it persists. -/
def made (listeners : List Listener) (r : Request) : List Deed :=
  match r with
  | .addTextsToAsset _ => if listeners.any Listener.fails then r.wanted.take 1 else r.wanted
  | _ => r.wanted

end Request

/-- What has been done of requests, with these listeners registered at first. -/
def doings (listeners : List Listener) : List Request → List Deed
  | [] => []
  | r :: rest => r.made listeners ++ doings (registered listeners (r.made listeners)) rest

section Quiet

variable {ls : List Listener}

theorem filter_telling (hls : ∀ l ∈ ls, l.Quiet) :
    (telling ls).filter (fun d => !d.isTell) = [] := by
  induction ls with
  | nil => rfl
  | cons l rest ih =>
      have hanswer : l.answer = [.tell l] := by
        rw [Listener.answer]
        rcases hls l (by simp) with h | h <;> rw [h]
      rw [telling, hanswer, List.filter_append]
      cases l.fails
      · exact ih fun l' hl' => hls l' (by simp [hl'])
      · rfl

theorem filter_persisting (hls : ∀ l ∈ ls, l.Quiet) (ws : List (String × Value)) :
    (persisting ls ws).filter (fun d => !d.isTell) =
      if ls.any Listener.fails then (ws.map fun e => Deed.store e.1 e.2).take 1
      else ws.map fun e => Deed.store e.1 e.2 := by
  induction ws with
  | nil => simp [persisting]
  | cons e rest ih =>
      have hregistered : registered ls (.store e.1 e.2 :: telling ls) = ls := by
        rw [← registered_filter, List.filter_cons_of_pos (by rfl), filter_telling hls]
        rfl
      rw [persisting, hregistered]
      cases hfails : ls.any Listener.fails with
      | true =>
          rw [if_pos rfl, List.filter_cons_of_pos (by rfl), filter_telling hls]
          simp
      | false =>
          rw [hfails] at ih
          rw [if_neg Bool.false_ne_true, List.filter_append, List.filter_cons_of_pos (by rfl),
            filter_telling hls, ih]
          simp

theorem Request.filter_deeds (hls : ∀ l ∈ ls, l.Quiet) (r : Request) :
    (r.deeds ls).filter (fun d => !d.isTell) = r.made ls := by
  cases r with
  | addTextsToAsset lines => exact filter_persisting hls _
  | addTextToAsset line text =>
      rw [deeds, List.filter_cons_of_pos (by rfl), filter_telling hls]
      rfl
  | addTexts _ | addObjects _ =>
      exact List.filter_eq_self.mpr (List.forall_mem_map.mpr fun _ _ => rfl)
  | _ => rfl

theorem Request.listen_of_enrol_mem_wanted {r : Request} {l : Listener}
    (h : .enrol l ∈ r.wanted) : r = .listen l := by
  cases r with
  | listen l' => simpa [wanted, eq_comm] using h
  | _ => simp [wanted] at h

theorem Request.mem_registered_made {r : Request} {l : Listener}
    (hl : l ∈ registered ls (r.made ls)) : l ∈ ls ∨ r = .listen l := by
  refine (mem_registered hl).imp_right fun henrolled => ?_
  have hwanted : .enrol l ∈ r.wanted := by
    unfold made at henrolled
    split at henrolled
    · split at henrolled
      · exact List.mem_of_mem_take henrolled
      · exact henrolled
    · exact henrolled
  exact listen_of_enrol_mem_wanted hwanted

theorem filter_history (hls : ∀ l ∈ ls, l.Quiet) {rs : List Request}
    (hrs : ∀ l, .listen l ∈ rs → l.Quiet) :
    (history ls rs).filter (fun d => !d.isTell) = doings ls rs := by
  induction rs generalizing ls with
  | nil => rfl
  | cons r rest ih =>
      have hregistered : registered ls (r.deeds ls) = registered ls (r.made ls) := by
        rw [← r.filter_deeds hls, registered_filter]
      have hquiet : ∀ l ∈ registered ls (r.made ls), l.Quiet := fun l hl =>
        (Request.mem_registered_made hl).elim (hls l) fun hr => hrs l (by simp [hr])
      rw [history, doings, List.filter_append, r.filter_deeds hls, hregistered,
        ih hquiet fun l hl => hrs l (by simp [hl])]

end Quiet

/-! ## Listeners that do not fail -/

theorem called_of_noFailure {ls : List Listener} (hls : ∀ l ∈ ls, l.reaction ≠ .fail) :
    called ls = ls := by
  induction ls with
  | nil => rfl
  | cons l rest ih =>
      have hfails : l.fails = false := by simpa [Listener.fails] using hls l (by simp)
      rw [called, hfails, if_neg Bool.false_ne_true, ih fun l' hl' => hls l' (by simp [hl'])]

theorem due_of_noFailure {ls : List Listener} {h : List Deed}
    (hls : ∀ l ∈ ls, l.reaction ≠ .fail) (hh : ∀ l, .enrol l ∈ h → l.reaction ≠ .fail) :
    due called ls h = due (fun ls => ls) ls h := by
  induction h generalizing ls with
  | nil => rfl
  | cons d h ih =>
      have hregister : ∀ l ∈ d.register ls, l.reaction ≠ .fail := fun l hl =>
        (mem_registered (h := [d]) hl).elim (hls l) fun hd => hh l (by simp_all)
      rw [due, due, called_of_noFailure hls, ih hregister fun l hl => hh l (by simp [hl])]

theorem Request.made_of_noFailure {ls : List Listener} (hls : ∀ l ∈ ls, l.reaction ≠ .fail)
    (r : Request) : r.made ls = r.wanted := by
  have hnone : ls.any Listener.fails = false := by simpa [Listener.fails] using hls
  cases r with
  | addTextsToAsset lines => rw [made, hnone, if_neg Bool.false_ne_true]
  | _ => rfl

theorem doings_of_noFailure {ls : List Listener} {rs : List Request}
    (hls : ∀ l ∈ ls, l.reaction ≠ .fail) (hrs : ∀ l, .listen l ∈ rs → l.reaction ≠ .fail) :
    doings ls rs = rs.flatMap Request.wanted := by
  induction rs generalizing ls with
  | nil => rfl
  | cons r rest ih =>
      have hregistered : ∀ l ∈ registered ls (r.made ls), l.reaction ≠ .fail := fun l hl =>
        (Request.mem_registered_made hl).elim (hls l) fun hr => hrs l (by simp [hr])
      rw [doings, ih hregistered fun l hl => hrs l (by simp [hl]), r.made_of_noFailure hls,
        List.flatMap_cons]

/-! ## The persisted texts -/

def Request.leavesTexts : Request → Bool
  | .addTextToAsset .. | .addTextsToAsset _ | .clear => false
  | _ => true

theorem texts_replay {h : List Deed} (hh : ∀ d ∈ h, d.stored? = none ∧ d.isClear = false)
    (l : Localization) : (replay l h).texts = l.texts := by
  induction h generalizing l with
  | nil => rfl
  | cons d h ih =>
      obtain ⟨hstored, hclear⟩ := hh d (by simp)
      rw [replay, List.foldl_cons, ← replay, ih fun d' hd' => hh d' (by simp [hd'])]
      cases d with
      | store _ _ => cases hstored
      | clear => cases hclear
      | _ => rfl

theorem Request.texts_perform {id : LocalizationId} {w : World} (hid : id < w.localizations.size)
    {r : Request} (hr : r.leavesTexts = true) :
    (((r.perform id).exec w).2.localization id).texts = (w.localization id).texts := by
  rw [r.exec_perform hid, World.localization_after hid]
  refine texts_replay ?_ _
  cases r with
  | addTextToAsset _ _ | addTextsToAsset _ | clear => cases hr
  | addTexts _ | addObjects _ => exact List.forall_mem_map.mpr fun _ _ => ⟨rfl, rfl⟩
  | _ => exact List.forall_mem_singleton.mpr ⟨rfl, rfl⟩

/-! ## The whole history -/

/-- Whatever is asked of a localization that is blank at first, by any number of requests, and
whichever of its listeners fail: what can be looked up in it is told by what has been done, each
persisted write has called the listeners that are registered then, in order, up to the first that
fails, and nothing else has called any. Where none fails all that is asked for has been done. -/
theorem told_by_history (id : LocalizationId) (w : World) (rs : List Request)
    (hid : id < w.localizations.size) (hblank : (w.localization id).Blank)
    (hquiet : ∀ l, .listen l ∈ rs → l.Quiet) :
    (((performAll id rs).exec w).2.localization id).Recounts (doings [] rs) ∧
    ((performAll id rs).exec w).2.journal.events =
      w.journal.events ++ (due called [] (doings [] rs)).map (fun l => (l, id)) ∧
    (∀ (r : Request) (u : World), r.leavesTexts = true → id < u.localizations.size →
      (((r.perform id).exec u).2.localization id).texts = (u.localization id).texts) ∧
    ((∀ l, .listen l ∈ rs → l.reaction ≠ .fail) →
      doings [] rs = rs.flatMap Request.wanted ∧
      due called [] (doings [] rs) = due (fun ls => ls) [] (rs.flatMap Request.wanted)) := by
  obtain ⟨outcomes, hrun⟩ := exec_performAll hid rs
  have hdoings : (history [] rs).filter (fun d => !d.isTell) = doings [] rs :=
    filter_history (by simp) hquiet
  rw [hrun, hblank.listeners]
  refine ⟨?_, ?_, fun r u hr hu => Request.texts_perform hu hr, fun hrs => ?_⟩
  · rw [World.localization_after hid, ← replay_filter, hdoings]
    exact (holds_replay hblank _).recounts
  · have htold : told (history [] rs) = due called [] (doings [] rs) := by
      rw [told_history, ← due_filter, hdoings]
    rw [← htold]
    rfl
  · have hwanted : doings [] rs = rs.flatMap Request.wanted := doings_of_noFailure (by simp) hrs
    refine ⟨hwanted, ?_⟩
    rw [hwanted]
    refine due_of_noFailure (by simp) fun l hl => ?_
    obtain ⟨r, hr, henrolled⟩ := List.mem_flatMap.mp hl
    exact hrs l (Request.listen_of_enrol_mem_wanted henrolled ▸ hr)

def vacant : World where
  localizations := #[{ localeCode := .text "en" }]

theorem blank_vacant : (vacant.localization 0).Blank :=
  ⟨rfl, rfl, rfl, rfl⟩

/-- A listener is taken off again, and then one that fails is registered, between writes of all
kinds. -/
def Request.examples : List Request :=
  [.addText "line:1" (.text "Hey"), .listen ⟨"view", .nothing⟩,
    .addTextsToAsset [.pair "line:1" (.text "Hi"),
      .entry { id := "line:2", language := "en", text := "Bye" }],
    .setObject "line:1" .null, .unlisten "view", .listen ⟨"alarm", .fail⟩,
    .addTextsToAsset [.pair "line:2" (.text "Off"), .pair "line:3" (.text "Oh")]]

theorem told_by_history_examples :
    (((performAll 0 Request.examples).exec vacant).2.localization 0).Recounts
      (doings [] Request.examples) ∧
    ((performAll 0 Request.examples).exec vacant).2.journal.events =
      (due called [] (doings [] Request.examples)).map (fun l => (l, 0)) :=
  have h := told_by_history 0 vacant Request.examples (by decide) blank_vacant
    (by simp [Request.examples, Listener.Quiet])
  ⟨h.1, h.2.1⟩

/-- A listener that fails, and another one behind it. -/
def Request.alarmed : List Request :=
  [.listen ⟨"alarm", .fail⟩, .listen ⟨"view", .nothing⟩, .addTextToAsset "line:1" (.text "Hi")]

/-- The listener behind the one that fails is registered, and is not called for the write. -/
theorem unheard_behind_alarm :
    (vacant.localization 0).Blank ∧
    (∀ l ∈ [Listener.mk "alarm" .fail, ⟨"view", .nothing⟩], l.Quiet) ∧
    ((performAll 0 Request.alarmed).exec vacant).2.journal.events ≠
      (due (fun ls => ls) [] (Request.alarmed.flatMap Request.wanted)).map (fun l => (l, 0)) :=
  ⟨blank_vacant, by simp [Listener.Quiet], by decide⟩

end Dialogue.Localization
