import Mathlib.Data.List.DropRight
import Dialogue.Localization
import Dialogue.Proofs.Value.Table

/-! A localization against the list of all that has been done to it since it was empty: of the texts
and assets those count that were written after the last clearing, and of these the last of each
line. -/

namespace Dialogue

/-- One thing that is done to a localization, or done by it. -/
inductive Deed where
  /-- A runtime text is written. -/
  | overlay (line : String) (text : Value)
  /-- A text is persisted. -/
  | store (line : String) (text : Value)
  /-- An asset is set. -/
  | place (line : String) (asset : Value)
  | clear
  | enrol (listener : Listener)
  /-- The first registration of a listener is taken off, if there is one. -/
  | dismiss (name : String)
  /-- A listener is called. -/
  | tell (listener : Listener)

namespace Deed

def apply (l : Localization) : Deed → Localization
  | .overlay line text => l.addText (.text line) text
  | .store line text => l.storeText (.text line) text
  | .place line asset => l.setObject (.text line) asset
  | .clear => l.clear
  | .enrol listener => l.addListener listener
  | .dismiss name => { l with listeners := l.listeners.eraseP fun x => x.name = name }
  | .tell _ => l

def register (listeners : List Listener) : Deed → List Listener
  | .enrol listener => listeners ++ [listener]
  | .dismiss name => listeners.eraseP fun x => x.name = name
  | _ => listeners

theorem listeners_apply (l : Localization) (d : Deed) :
    (d.apply l).listeners = d.register l.listeners := by
  cases d <;> rfl

def isClear : Deed → Bool
  | .clear => true
  | _ => false

def isTell : Deed → Bool
  | .tell _ => true
  | _ => false

def overlaid? : Deed → Option (String × Value)
  | .overlay line text => some (line, text)
  | _ => none

def stored? : Deed → Option (String × Value)
  | .store line text => some (line, text)
  | _ => none

def placed? : Deed → Option (String × Value)
  | .place line asset => some (line, asset)
  | _ => none

end Deed

def replay (l : Localization) (h : List Deed) : Localization :=
  h.foldl Deed.apply l

def registered (listeners : List Listener) (h : List Deed) : List Listener :=
  h.foldl Deed.register listeners

@[simp] theorem replay_append (l : Localization) (h h' : List Deed) :
    replay l (h ++ h') = replay (replay l h) h' :=
  List.foldl_append

theorem listeners_replay (l : Localization) (h : List Deed) :
    (replay l h).listeners = registered l.listeners h := by
  induction h generalizing l with
  | nil => rfl
  | cons d h ih =>
      rw [replay, List.foldl_cons, ← replay, ih, Deed.listeners_apply]
      rfl

/-- Whoever is registered was registered before, or has been enrolled. -/
theorem mem_registered {ls : List Listener} {h : List Deed} {l : Listener}
    (hl : l ∈ registered ls h) : l ∈ ls ∨ .enrol l ∈ h := by
  induction h generalizing ls with
  | nil => exact .inl hl
  | cons d h ih =>
      rcases ih hl with hregister | hlater
      · cases d with
        | enrol l' =>
            rcases List.mem_append.mp hregister with hbefore | henrolled
            · exact .inl hbefore
            · exact .inr (by simp [List.mem_singleton.mp henrolled])
        | dismiss name => exact .inl (List.mem_of_mem_eraseP hregister)
        | _ => exact .inl hregister
      · exact .inr (List.mem_cons_of_mem _ hlater)

theorem replay_filter (l : Localization) (h : List Deed) :
    replay l (h.filter fun d => !d.isTell) = replay l h := by
  induction h generalizing l with
  | nil => rfl
  | cons d h ih =>
      cases d <;> exact ih _

theorem registered_filter (ls : List Listener) (h : List Deed) :
    registered ls (h.filter fun d => !d.isTell) = registered ls h := by
  induction h generalizing ls with
  | nil => rfl
  | cons d h ih =>
      cases d <;> exact ih _

/-! ## Writes since the last clearing -/

section Writes

variable (kind : Deed → Option (String × Value)) (h : List Deed)

def sinceClear : List Deed :=
  h.rtakeWhile fun d => !d.isClear

def writes : List (String × Value) :=
  (sinceClear h).filterMap kind

def runtimeWrites : List (String × Value) :=
  writes Deed.overlaid? h

def persistedWrites : List (String × Value) :=
  writes Deed.stored? h

def assetWrites : List (String × Value) :=
  writes Deed.placed? h

theorem writes_concat (d : Deed) :
    writes kind (h ++ [d]) = if d.isClear then [] else writes kind h ++ (kind d).toList := by
  rw [writes, sinceClear, List.rtakeWhile_concat]
  cases d.isClear
  · rw [if_pos (by rfl), List.filterMap_append, List.filterMap_cons]
    cases kind d <;> rfl
  · rfl

end Writes

/-- What has been written last for a line. -/
def lastOf (line : String) (ws : List (String × Value)) : Option Value :=
  (ws.filter fun e => e.1 = line).getLast?.map (·.2)

theorem isSome_lastOf (line : String) (ws : List (String × Value)) :
    (lastOf line ws).isSome = true ↔ line ∈ ws.map (·.1) := by
  rw [lastOf, Option.isSome_map, List.getLast?_isSome, ne_eq, List.filter_eq_nil_iff]
  simp

/-! ## Tables of writes -/

def tableOf (ws : List (String × Value)) : Table Value :=
  Table.ofEntries (ws.map fun e => (Scalar.text e.1, e.2))

theorem tableOf_nil : tableOf [] = [] := rfl

theorem tableOf_concat (ws : List (String × Value)) (line : String) (v : Value) :
    tableOf (ws ++ [(line, v)]) = Table.put (tableOf ws) (.text line) v := by
  rw [tableOf, List.map_append, Table.ofEntries, List.foldl_append]
  rfl

theorem lookup_tableOf (ws : List (String × Value)) (line : String) :
    Table.lookup (tableOf ws) (.text line) = lastOf line ws := by
  rw [tableOf, Table.lookup_ofEntries, List.filter_map, List.getLast?_map, Option.map_map, lastOf]
  simp only [Function.comp_def, Scalar.sameKey_text]

theorem keys_tableOf (ws : List (String × Value)) :
    Table.keys (tableOf ws) = (ws.map (·.1)).eraseDups.map fun s : String => Scalar.text s :=
  Table.keys_ofEntries_text Prod.fst Prod.snd ws

theorem has_tableOf (ws : List (String × Value)) (line : String) :
    Table.has (tableOf ws) (.text line) = true ↔ line ∈ ws.map (·.1) := by
  rw [Table.has_eq_decide_of_keys (keys_tableOf ws), decide_eq_true_iff, List.mem_eraseDups]

/-! ## What a localization holds -/

/-- A localization without texts, assets and listeners, as every one begins. -/
structure Localization.Blank (l : Localization) : Prop where
  texts : l.texts = []
  assets : l.assets = []
  runtime : l.runtime = []
  listeners : l.listeners = []

/-- The tables of a localization are those of what has been written since the last clearing. -/
structure Localization.Holds (l : Localization) (h : List Deed) : Prop where
  runtime : l.runtime = tableOf (runtimeWrites h)
  texts : l.texts = tableOf (persistedWrites h)
  assets : l.assets = tableOf (assetWrites h)

namespace Localization

variable {l : Localization} {h : List Deed}

theorem Holds.apply (hl : l.Holds h) (d : Deed) : (d.apply l).Holds (h ++ [d]) := by
  obtain ⟨hruntime, htexts, hassets⟩ := hl
  simp only [runtimeWrites, persistedWrites, assetWrites] at hruntime htexts hassets
  constructor <;> simp only [runtimeWrites, persistedWrites, assetWrites, writes_concat] <;>
    cases d <;> simp [Deed.apply, Deed.isClear, Deed.overlaid?, Deed.stored?, Deed.placed?, addText,
      storeText, setObject, addListener, clear, tableOf_concat, tableOf_nil, hruntime, htexts,
      hassets]

theorem holds_replay (hl : l.Blank) (h : List Deed) : (replay l h).Holds h := by
  induction h using List.reverseRecOn with
  | nil => exact ⟨hl.runtime, hl.texts, hl.assets⟩
  | append_singleton h d ih =>
      rw [replay_append]
      exact ih.apply d

/-- What can be looked up in a localization, told from what has been done to it. -/
structure Recounts (l : Localization) (h : List Deed) : Prop where
  /-- The text of the last runtime write of the line, else that of the last persisted write. -/
  getText : ∀ line : String, l.getText (.text line) =
    (lastOf line (runtimeWrites h)).or (lastOf line (persistedWrites h))
  hasText : ∀ line : String, l.hasText (.text line) = true ↔
    line ∈ (runtimeWrites h).map (·.1) ∨ line ∈ (persistedWrites h).map (·.1)
  lineIds : ∀ line : String, Scalar.text line ∈ l.lineIds ↔ l.hasText (.text line) = true
  /-- The persisted lines, in the order of their first writes. -/
  textKeys : Table.keys l.texts =
    ((persistedWrites h).map (·.1)).eraseDups.map fun line : String => .text line
  texts : ∀ line : String, Table.lookup l.texts (.text line) = lastOf line (persistedWrites h)
  assetKeys : Table.keys l.assets =
    ((assetWrites h).map (·.1)).eraseDups.map fun line : String => .text line
  assets : ∀ line : String, Table.lookup l.assets (.text line) = lastOf line (assetWrites h)

theorem Holds.mem_lineIds (hl : l.Holds h) (line : String) :
    Scalar.text line ∈ l.lineIds ↔
      line ∈ (runtimeWrites h).map (·.1) ∨ line ∈ (persistedWrites h).map (·.1) := by
  let lines := ((runtimeWrites h).map (·.1)).eraseDups ++ ((persistedWrites h).map (·.1)).eraseDups
  have hkeys : (l.runtime ++ l.texts).map (fun e => (e.1, ())) =
      lines.map fun line : String => (Scalar.text line, ()) := by
    have hall := congrArg₂ (· ++ ·) (keys_tableOf (runtimeWrites h))
      (keys_tableOf (persistedWrites h))
    simp only [Table.keys, ← hl.runtime, ← hl.texts, ← List.map_append] at hall
    simpa [lines, Function.comp_def] using congrArg (List.map fun key => (key, ())) hall
  have hids : l.lineIds = (lines.map id).eraseDups.map fun s : String => Scalar.text s := by
    rw [lineIds, hkeys]
    exact Table.keys_ofEntries_text id (fun _ => ()) lines
  rw [hids]
  simp [lines, List.mem_eraseDups]

theorem Holds.recounts (hl : l.Holds h) : l.Recounts h where
  getText line := by
    rw [getText, hl.runtime, hl.texts, lookup_tableOf, lookup_tableOf]
    by_cases hline : line ∈ (runtimeWrites h).map (·.1)
    · obtain ⟨v, hv⟩ := Option.isSome_iff_exists.mp ((isSome_lastOf _ _).mpr hline)
      rw [if_pos ((has_tableOf _ _).mpr hline), hv, Option.some_or]
    · have hnone := Option.not_isSome_iff_eq_none.mp (mt (isSome_lastOf _ _).mp hline)
      rw [if_neg (mt (has_tableOf _ _).mp hline), hnone, Option.none_or]
  hasText line := by
    rw [hasText, hl.runtime, hl.texts, Bool.or_eq_true, has_tableOf, has_tableOf]
  lineIds line := by
    rw [hl.mem_lineIds, hasText, hl.runtime, hl.texts, Bool.or_eq_true, has_tableOf, has_tableOf]
  textKeys := by rw [hl.texts, keys_tableOf]
  texts line := by rw [hl.texts, lookup_tableOf]
  assetKeys := by rw [hl.assets, keys_tableOf]
  assets line := by rw [hl.assets, lookup_tableOf]

end Localization

end Dialogue
