import Dialogue.Proofs.Localization.Telling
import Dialogue.Session

/-! What requests have done to a localization, and whom they have called, is told by the list of the
requests alone. -/

namespace Dialogue.Localization

/-! ## Requests -/

/-- An item of a bulk write: an entry of a string table, or a line with its text. -/
inductive BulkLine where
  | entry (e : StringTable.Entry)
  | pair (line : String) (text : Value)

namespace BulkLine

def write : BulkLine → String × Value
  | .entry e => (e.id, .text e.text)
  | .pair line text => (line, text)

def item : BulkLine → BulkItem
  | .entry e => .entry e
  | .pair line text => .value (.list [.text line, text])

end BulkLine

/-- Assets by line, each line once. -/
structure AssetMapping where
  entries : List (String × Value)
  nodup : (entries.map (·.1)).Nodup

/-- The requests that write texts and assets, empty the tables, or register listeners. -/
inductive Request where
  | addText (line : String) (text : Value)
  | addTexts (lines : List BulkLine)
  | addTextToAsset (line : String) (text : Value)
  | addTextsToAsset (lines : List BulkLine)
  | setObject (line : String) (asset : Value)
  | addObjects (objects : AssetMapping)
  | clear
  | listen (listener : Listener)
  | unlisten (name : String)

namespace Request

def perform (id : LocalizationId) : Request → Action Unit
  | .addText line text => Action.updateLocalization id fun l => l.addText (.text line) text
  | .addTexts lines =>
    Session.addItems (fun line text => Action.updateLocalization id fun l => l.addText line text)
      (lines.map BulkLine.item)
  | .addTextToAsset line text => Action.persistText id (.text line) text
  | .addTextsToAsset lines => Session.addItems (Action.persistText id) (lines.map BulkLine.item)
  | .setObject line asset => Action.updateLocalization id fun l => l.setObject (.text line) asset
  | .addObjects objects =>
    Action.updateLocalization id fun l => l.addObjects (Table.ofEntries (keyed objects.entries))
  | .clear => Action.updateLocalization id Localization.clear
  | .listen listener => Action.updateLocalization id fun l => l.addListener listener
  | .unlisten name => do
    let l ← Action.ofExcept ((← Action.localization id).removeListener name)
    Action.updateLocalization id fun _ => l

/-- What a request comes to, with these listeners registered. -/
def outcome (listeners : List Listener) : Request → Except Fault Unit
  | .addTextToAsset .. => alarm listeners
  | .addTextsToAsset lines => if lines.isEmpty then .ok () else alarm listeners
  | .unlisten name =>
    if listeners.any fun x => x.name = name then .ok () else .error .notRegistered
  | _ => .ok ()

/-- What a request leads to, with these listeners registered. -/
def deeds (listeners : List Listener) : Request → List Deed
  | .addText line text => [.overlay line text]
  | .addTexts lines => (lines.map BulkLine.write).map fun e => .overlay e.1 e.2
  | .addTextToAsset line text => .store line text :: telling listeners
  | .addTextsToAsset lines => persisting listeners (lines.map BulkLine.write)
  | .setObject line asset => [.place line asset]
  | .addObjects objects => objects.entries.map fun e => .place e.1 e.2
  | .clear => [.clear]
  | .listen listener => [.enrol listener]
  | .unlisten name => [.dismiss name]

/-- The step of a session that makes a request. -/
def step : Request → LocalizationStep
  | .addText line text => .addText (.text line) text
  | .addTexts lines => .addTexts (lines.map BulkLine.item)
  | .addTextToAsset line text => .addTextToAsset (.text line) text
  | .addTextsToAsset lines => .addTextsToAsset (lines.map BulkLine.item)
  | .setObject line asset => .setObject (.text line) asset
  | .addObjects objects => .addObjects (objects.entries.map fun e => (.text e.1, e.2))
  | .clear => .clear
  | .listen listener => .listen listener.name listener.reaction
  | .unlisten name => .unlisten name

theorem keyed_entries (es : List (String × Value)) :
    Session.keyed (es.map fun e => (.text e.1, e.2)) = .ok (keyed es) := by
  induction es with
  | nil => rfl
  | cons e es ih =>
      rw [Session.keyed] at ih ⊢
      rw [List.map_cons, List.mapM_cons, ih]
      rfl

/-- A session makes requests as they are made here. A listener that it knows by name stays what it
is. -/
theorem exec_onLocalization (s : Session) (object : ObjectNumber) (r : Request) (w : World)
    (hknown : ∀ l, r = .listen l → (s.listeners.find? fun x => x.name = l.name).getD l = l) :
    (s.onLocalization object r.step).exec w =
      Action.exec (do r.perform (s.idOf object); return Answer.nothing) w := by
  cases r with
  | listen l =>
      rw [step, Session.onLocalization, Action.exec_bind_of_ok (Action.exec_localization _ _)]
      dsimp only
      rw [hknown l rfl]
      rfl
  | addObjects objects =>
      rw [step, Session.onLocalization, Action.exec_bind_of_ok (Action.exec_localization _ _)]
      dsimp only
      rw [keyed_entries]
      rfl
  | unlisten name =>
      rw [step, Session.onLocalization, Action.exec_bind_of_ok (Action.exec_localization _ _)]
      dsimp only
      have hperform : ((unlisten name).perform (s.idOf object)).exec w = Action.exec (do
          let l ← Action.ofExcept ((w.localization (s.idOf object)).removeListener name)
          Action.updateLocalization (s.idOf object) fun _ => l) w := rfl
      rw [Action.exec_bind (perform _ _), hperform]
      cases (w.localization (s.idOf object)).removeListener name <;> rfl
  | _ => rfl

end Request

/-! ## One request -/

section Step

variable {id : LocalizationId} {w : World}

/-- The items of a bulk request are added one by one. -/
theorem exec_addItems_cons (add : Scalar → Value → Action Unit) (line : BulkLine)
    (rest : List BulkLine) (w : World) :
    (Session.addItems add ((line :: rest).map BulkLine.item)).exec w =
      Action.exec (do
        add (.text line.write.1) line.write.2
        Session.addItems add (rest.map BulkLine.item)) w := by
  cases line <;> rfl

theorem exec_addItems_addText (hid : id < w.localizations.size) (lines : List BulkLine) :
    (Session.addItems
      (fun line text => Action.updateLocalization id fun l => l.addText line text)
      (lines.map BulkLine.item)).exec w =
      (.ok (), w.after id ((lines.map BulkLine.write).map fun e => .overlay e.1 e.2)) := by
  induction lines generalizing w with
  | nil => rw [List.map_nil, List.map_nil, List.map_nil, World.after_nil]; rfl
  | cons line rest ih =>
      have hline : w.setLocalization id
          ((w.localization id).addText (.text line.write.1) line.write.2) =
          w.after id [.overlay line.write.1 line.write.2] :=
        (w.after_singleton id (.overlay line.write.1 line.write.2) rfl).symm
      rw [exec_addItems_cons, Action.exec_bind_of_ok (Action.exec_updateLocalization _ _ _), hline,
        ih (by simpa using hid), World.after_after hid]
      rfl

theorem exec_addItems_persistText (lines : List BulkLine) (w : World) :
    (Session.addItems (Action.persistText id) (lines.map BulkLine.item)).exec w =
      (Action.persistTexts id (keyed (lines.map BulkLine.write))).exec w := by
  induction lines generalizing w with
  | nil => rfl
  | cons line rest ih =>
      rw [exec_addItems_cons, Action.exec_bind]
      simp only [ih]
      exact (Action.exec_bind _ _ w).symm

theorem AssetMapping.ofEntries_keyed (objects : AssetMapping) :
    Table.ofEntries (keyed objects.entries) = keyed objects.entries := by
  refine Table.ofEntries_of_distinct (List.pairwise_map.mpr ?_)
  exact (List.pairwise_map.mp objects.nodup).imp fun hne => by simpa [Scalar.sameKey_text] using hne

theorem addObjects_keyed (l : Localization) (objects : List (String × Value)) :
    l.addObjects (keyed objects) = replay l (objects.map fun e => .place e.1 e.2) := by
  rw [addObjects, keyed, List.foldl_map, replay, List.foldl_map]
  rfl

theorem Request.exec_perform (hid : id < w.localizations.size) (r : Request) :
    (r.perform id).exec w =
      (r.outcome (w.localization id).listeners,
        w.after id (r.deeds (w.localization id).listeners)) := by
  cases r with
  | addText line text => exact Prod.ext rfl (w.after_singleton id (.overlay line text) rfl).symm
  | setObject line asset => exact Prod.ext rfl (w.after_singleton id (.place line asset) rfl).symm
  | clear => exact Prod.ext rfl (w.after_singleton id .clear rfl).symm
  | listen listener => exact Prod.ext rfl (w.after_singleton id (.enrol listener) rfl).symm
  | addTexts lines => exact exec_addItems_addText hid lines
  | addTextToAsset line text => exact Action.exec_persistText hid line text
  | addTextsToAsset lines =>
      rw [perform, exec_addItems_persistText, Action.exec_persistTexts hid, List.isEmpty_map]
      rfl
  | addObjects objects =>
      have htold : told (objects.entries.map fun e => .place e.1 e.2) = [] := by
        rw [told, List.filterMap_map]
        exact List.filterMap_none _
      rw [perform, deeds, World.after_of_told htold, Action.exec_updateLocalization,
        objects.ofEntries_keyed, addObjects_keyed]
      rfl
  | unlisten name =>
      rw [perform, Action.exec_bind_of_ok (Action.exec_localization _ _), removeListener, outcome,
        deeds, w.after_singleton id (.dismiss name) rfl]
      cases hany : (w.localization id).listeners.any fun x => x.name = name with
      | true => rfl
      | false =>
          rw [Deed.apply, List.eraseP_of_forall_not (by simpa using hany),
            World.setLocalization_localization]
          rfl

end Step

end Dialogue.Localization
