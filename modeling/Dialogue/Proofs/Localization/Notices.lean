import Dialogue.Proofs.Build.Reload
import Dialogue.Proofs.Localization.History

/-! A listener that is registered has been told of the persisted texts as they are, whatever is done
to the localization, unless the localization has been emptied since: that is not told to anyone. -/

namespace Dialogue.Localization

/-! ## Watching a listener -/

/-- A localization, and what one of its listeners knows of it. -/
structure Watch where
  localization : Localization
  /-- The table that the listener could read when it was last told of a change or, as long as it has
  not been told of any, when it was registered. -/
  read : Option (Table Value)
  /-- Whether the localization has been emptied since. -/
  cleared : Bool

def names (l : Localization) : List String :=
  l.listeners.map Listener.name

/-- No listener that has been called has failed. -/
def NoneFailed (h : List Deed) : Prop :=
  ∀ l ∈ told h, l.reaction ≠ .fail

theorem noneFailed_append {h h' : List Deed} :
    NoneFailed (h ++ h') ↔ NoneFailed h ∧ NoneFailed h' := by
  rw [NoneFailed, told_append]
  exact List.forall_mem_append

/-- A round of calls in which none fails reaches all listeners. -/
theorem NoneFailed.of_stored {line : String} {text : Value} {ls : List Listener}
    (h : NoneFailed (.store line text :: telling ls)) : ∀ l ∈ ls, l.reaction ≠ .fail := by
  have hcalled : ∀ l ∈ called ls, l.reaction ≠ .fail := told_telling ls ▸ h
  clear h
  induction ls with
  | nil => simp
  | cons l rest ih =>
      rw [called] at hcalled
      have hl := hcalled l (by simp)
      have hfails : l.fails = false := by simpa [Listener.fails] using hl
      rw [hfails, if_neg Bool.false_ne_true] at hcalled
      exact List.forall_mem_cons.mpr ⟨hl, ih fun l' hl' => hcalled l' (by simp [hl'])⟩

namespace Watch

variable (name : String)

def look (s : Watch) : Watch :=
  ⟨s.localization, some s.localization.texts, false⟩

def step (s : Watch) (d : Deed) : Watch :=
  match d with
  | .tell l => if l.name = name then s.look else s
  | .enrol l =>
    let seen := if l.name = name ∧ name ∉ s.localization.names then s.look else s
    { seen with localization := s.localization.addListener l }
  | .clear => { s with localization := s.localization.clear, cleared := true }
  | d => { s with localization := d.apply s.localization }

def run (s : Watch) (h : List Deed) : Watch :=
  h.foldl (step name) s

/-- The listener, if it is registered, knows the table as it is but for a clearing. -/
def Current (s : Watch) : Prop :=
  name ∈ s.localization.names →
    ∃ t, s.read = some t ∧ s.localization.texts = if s.cleared then [] else t

/-- The listener knows the table as it is. -/
def Informed (s : Watch) : Prop :=
  s.read = some s.localization.texts ∧ s.cleared = false

variable {name} {s : Watch}

@[simp] theorem run_append (s : Watch) (h h' : List Deed) :
    s.run name (h ++ h') = (s.run name h).run name h' :=
  List.foldl_append

theorem localization_step (s : Watch) (d : Deed) :
    (s.step name d).localization = d.apply s.localization := by
  cases d with
  | tell l => simp only [step, look]; split <;> rfl
  | _ => rfl

theorem localization_run (s : Watch) (h : List Deed) :
    (s.run name h).localization = replay s.localization h := by
  induction h generalizing s with
  | nil => rfl
  | cons d h ih => rw [run, List.foldl_cons, ← run, ih, localization_step]; rfl

theorem Informed.current (hs : s.Informed) : s.Current name :=
  fun _ => ⟨_, hs.1, by rw [hs.2, if_neg Bool.false_ne_true]⟩

theorem informed_look (s : Watch) : s.look.Informed :=
  ⟨rfl, rfl⟩

/-- Only a text that is stored can be news to the listener. -/
theorem Current.step (hs : s.Current name) {d : Deed} (hd : d.stored? = none) :
    (s.step name d).Current name := by
  cases d with
  | store _ _ => cases hd
  | overlay _ _ | place _ _ => exact hs
  | clear =>
      intro hname
      obtain ⟨t, hread, -⟩ := hs hname
      exact ⟨t, hread, rfl⟩
  | dismiss other =>
      intro hname
      obtain ⟨l, hl, hlname⟩ := List.mem_map.mp hname
      exact hs (List.mem_map.mpr ⟨l, List.mem_of_mem_eraseP hl, hlname⟩)
  | tell l =>
      simp only [Watch.step]
      split
      · exact s.informed_look.current
      · exact hs
  | enrol l =>
      simp only [Watch.step]
      split
      · exact fun _ => ⟨_, rfl, rfl⟩
      · rename_i hother
        intro hname
        refine hs ?_
        obtain ⟨l', hl', hlname⟩ := List.mem_map.mp hname
        rcases List.mem_append.mp hl' with hbefore | hadded
        · exact List.mem_map.mpr ⟨l', hbefore, hlname⟩
        · rw [List.mem_singleton.mp hadded] at hlname
          exact Decidable.byContradiction fun hnew => hother ⟨hlname, hnew⟩

theorem Current.run {h : List Deed} (hs : s.Current name) (hh : ∀ d ∈ h, d.stored? = none) :
    (s.run name h).Current name := by
  induction h generalizing s with
  | nil => exact hs
  | cons d h ih => exact ih (hs.step (hh d (by simp))) fun d' hd' => hh d' (by simp [hd'])

/-- A listener that is called knows the table, and one that is not knows no less than before. -/
theorem informed_answer {l : Listener} (hs : l.name = name ∨ s.Informed) :
    (s.run name l.answer).Informed := by
  have htold : (s.step name (.tell l)).Informed := by
    simp only [Watch.step]
    split
    · exact s.informed_look
    · rename_i hother
      exact hs.resolve_left hother
  rw [Listener.answer, Watch.run, List.foldl_cons]
  cases l.reaction <;> exact htold

/-- Whoever is called in a round that no listener fails in knows the table afterwards. -/
theorem informed_telling {ls : List Listener} (hls : ∀ l ∈ ls, l.reaction ≠ .fail)
    (hs : name ∈ ls.map Listener.name ∨ s.Informed) : (s.run name (telling ls)).Informed := by
  induction ls generalizing s with
  | nil => exact hs.resolve_left List.not_mem_nil
  | cons l rest ih =>
      have hfails : l.fails = false := by simpa [Listener.fails] using hls l (by simp)
      rw [telling, hfails, if_neg Bool.false_ne_true, run_append]
      refine ih (fun l' hl' => hls l' (by simp [hl'])) ?_
      rw [List.map_cons, List.mem_cons] at hs
      by_cases hrest : name ∈ rest.map Listener.name
      · exact .inl hrest
      · refine .inr (informed_answer ?_)
        rcases hs with (hname | hname) | hinformed
        · exact .inl hname.symm
        · exact absurd hname hrest
        · exact .inr hinformed

/-- A text that is stored is told to all that are registered, unless one fails. -/
theorem current_stored (hfail : ∀ l ∈ s.localization.listeners, l.reaction ≠ .fail)
    (line : String) (text : Value) :
    (s.run name (.store line text :: telling s.localization.listeners)).Current name := by
  intro hname
  refine (informed_telling hfail (.inl ?_)).current hname
  rw [names, localization_run, listeners_replay] at hname
  obtain ⟨l, hl, hlname⟩ := List.mem_map.mp hname
  exact List.mem_map.mpr ⟨l, registered_telling_subset _ _ hl, hlname⟩

theorem Current.persisting (hs : s.Current name) {ws : List (String × Value)}
    (htold : NoneFailed (persisting s.localization.listeners ws)) :
    (s.run name (persisting s.localization.listeners ws)).Current name := by
  induction ws generalizing s with
  | nil => exact hs
  | cons e rest ih =>
      let stored := s.run name (.store e.1 e.2 :: telling s.localization.listeners)
      have hlisteners : stored.localization.listeners = registered s.localization.listeners
          (.store e.1 e.2 :: telling s.localization.listeners) := by
        rw [localization_run, listeners_replay]
      rw [Dialogue.persisting] at htold ⊢
      split at htold
      · rw [if_pos ‹_›]
        exact current_stored htold.of_stored e.1 e.2
      · rw [if_neg ‹_›, run_append, ← hlisteners]
        obtain ⟨hstored, hrest⟩ := noneFailed_append.mp htold
        rw [← hlisteners] at hrest
        exact ih (current_stored hstored.of_stored e.1 e.2) hrest

end Watch

/-! ## Requests and builds -/

/-- What is done with a localization: a request is made of it, or a project is built of which it is
the base. -/
inductive Undertaking where
  | request (r : Request)
  | build (compiler : Compiler) (config : Config) (project : ProjectId)

namespace Undertaking

def perform (id : LocalizationId) : Undertaking → Action Unit
  | .request r => do let _ ← Action.attempt (r.perform id)
  | .build compiler config project => do
    let _ ← Action.attempt (Dialogue.build compiler config (some project))

/-- What an undertaking may lead to, with these listeners registered. -/
def Leads (listeners : List Listener) (h : List Deed) : Undertaking → Prop
  | .request r => h = r.deeds listeners
  | .build .. => Build.Reload listeners h

/-- A build that the localization takes part in as the base, with a compiler that leaves it
alone. -/
def AtBase (id : LocalizationId) (w : World) : Undertaking → Prop
  | .request _ => True
  | .build compiler _ project => compiler.Spares id ∧ (w.project project).base = some id

end Undertaking

def performEach (id : LocalizationId) : List Undertaking → Action Unit
  | [] => return
  | u :: rest => do
    u.perform id
    performEach id rest

/-- What undertakings may lead to, with these listeners registered at first. -/
inductive Led : List Listener → List Undertaking → List Deed → Prop
  | nil (ls : List Listener) : Led ls [] []
  | cons {ls : List Listener} {u : Undertaking} {us : List Undertaking} {h h' : List Deed}
      (first : u.Leads ls h) (rest : Led (registered ls h) us h') : Led ls (u :: us) (h ++ h')

section Undertakings

variable {id : LocalizationId} {w : World}

theorem Undertaking.exec_perform_request (r : Request) :
    ((Undertaking.request r).perform id).exec w = (.ok (), ((r.perform id).exec w).2) := by
  rw [perform, Action.exec_bind_of_ok (Action.exec_attempt _ _)]
  rfl

theorem Undertaking.exec_perform_build (compiler : Compiler) (config : Config)
    (project : ProjectId) :
    ((Undertaking.build compiler config project).perform id).exec w =
      (.ok (), ((Dialogue.build compiler config (some project)).exec w).2) := by
  rw [perform, Action.exec_bind_of_ok (Action.exec_attempt _ _)]
  rfl

theorem exists_leads_perform (hid : id < w.localizations.size) {u : Undertaking}
    (hu : u.AtBase id w) :
    ∃ h, u.Leads (w.localization id).listeners h ∧ w.Came id h ((u.perform id).exec w).2 := by
  cases u with
  | request r =>
      refine ⟨_, rfl, ?_⟩
      rw [Undertaking.exec_perform_request, r.exec_perform hid]
      exact .after hid _
  | build compiler config project =>
      rw [Undertaking.exec_perform_build]
      exact Build.came_build hu.1 hid hu.2 config

theorem Undertaking.AtBase.of_came {h : List Deed} {v : World} (hv : w.Came id h v)
    {u : Undertaking} (hu : u.AtBase id w) : u.AtBase id v := by
  cases u with
  | request r => trivial
  | build compiler config project => exact ⟨hu.1, (hv.base project).trans hu.2⟩

theorem listeners_of_came {h : List Deed} {v : World} (hv : w.Came id h v) :
    (v.localization id).listeners = registered (w.localization id).listeners h := by
  have hsame := congrArg Localization.listeners hv.contents
  rw [← contents_replay] at hsame
  exact hsame.trans (listeners_replay _ _)

theorem exists_led_performEach (hid : id < w.localizations.size) {us : List Undertaking}
    (hus : ∀ u ∈ us, u.AtBase id w) :
    ∃ h v, (performEach id us).exec w = (.ok (), v) ∧ Led (w.localization id).listeners us h ∧
      w.Came id h v := by
  induction us generalizing w with
  | nil => exact ⟨[], w, rfl, .nil _, .refl id w⟩
  | cons u rest ih =>
      obtain ⟨h, hleads, hfirst⟩ := exists_leads_perform hid (hus u (by simp))
      have hok : ((u.perform id).exec w).1 = .ok () := by
        cases u with
        | request r => rw [Undertaking.exec_perform_request]
        | build compiler config project => rw [Undertaking.exec_perform_build]
      obtain ⟨h', v, hexec, hled, hrest⟩ := ih (Nat.lt_of_lt_of_le hid hfirst.size) fun u' hu' =>
        (hus u' (by simp [hu'])).of_came hfirst
      rw [listeners_of_came hfirst] at hled
      refine ⟨h ++ h', v, ?_, .cons hleads hled, hfirst.trans hrest⟩
      rw [performEach, Action.exec_bind_of_ok (Prod.ext hok rfl), hexec]

end Undertakings

/-! ## What is left unnoticed -/

section Current

variable {name : String} {s : Watch}

theorem Watch.Current.leads (hs : s.Current name) {u : Undertaking} {h : List Deed}
    (hu : u.Leads s.localization.listeners h) (htold : NoneFailed h) :
    (s.run name h).Current name := by
  cases u with
  | build compiler config project =>
      rcases hu with rfl | ⟨lines, rfl⟩
      · exact hs
      · exact (hs.step (d := .clear) rfl).persisting htold
  | request r =>
      rw [hu] at htold ⊢
      cases r with
      | addTextToAsset line text => exact Watch.current_stored htold.of_stored line text
      | addTextsToAsset lines => exact hs.persisting htold
      | addTexts _ | addObjects _ => exact hs.run (List.forall_mem_map.mpr fun _ _ => rfl)
      | _ => exact hs.run (List.forall_mem_singleton.mpr rfl)

theorem Watch.Current.led {ls : List Listener} {us : List Undertaking} {h : List Deed}
    (hled : Led ls us h) (hs : s.Current name) (hls : s.localization.listeners = ls)
    (htold : NoneFailed h) : (s.run name h).Current name := by
  induction hled generalizing s with
  | nil _ => exact hs
  | cons first rest ih =>
      subst hls
      obtain ⟨hfirst, hrest⟩ := noneFailed_append.mp htold
      rw [Watch.run_append]
      refine ih (hs.leads first hfirst) ?_ hrest
      rw [Watch.localization_run, listeners_replay]

end Current

/-- What a listener knows that has looked at a localization when deeds are done to it. -/
def watch (name : String) (l : Localization) (h : List Deed) : Watch :=
  Watch.run name ⟨l, some l.texts, false⟩ h

/-- Whatever is asked of a localization and however often it is built as the base, as long as no
listener that is called fails: every listener that is registered afterwards has read the table as it
is when it was last told of a change, or when it was registered, unless the localization has been
emptied since, and then the table is empty. -/
theorem read_unless_cleared (id : LocalizationId) (name : String) (us : List Undertaking)
    (w : World) (hid : id < w.localizations.size) (hus : ∀ u ∈ us, u.AtBase id w) :
    ∃ h v, (performEach id us).exec w = (.ok (), v) ∧ Led (w.localization id).listeners us h ∧
      v.journal.events = w.journal.events ++ (told h).map (fun l => (l, id)) ∧
      (NoneFailed h → name ∈ (v.localization id).names →
        ∃ t, (watch name (w.localization id) h).read = some t ∧
          (v.localization id).texts =
            if (watch name (w.localization id) h).cleared then [] else t) := by
  obtain ⟨h, v, hexec, hled, hcame⟩ := exists_led_performEach hid hus
  refine ⟨h, v, hexec, hled, hcame.events, fun htold hname => ?_⟩
  have hwatch : (watch name (w.localization id) h).localization = replay (w.localization id) h :=
    Watch.localization_run _ h
  have hcontents : (v.localization id).contents =
      (watch name (w.localization id) h).localization.contents := by
    rw [hwatch, contents_replay, hcame.contents]
  have htexts := congrArg Localization.texts hcontents
  have hnames := congrArg names hcontents
  have hbegun : Watch.Informed ⟨w.localization id, some (w.localization id).texts, false⟩ :=
    ⟨rfl, rfl⟩
  obtain ⟨t, hread, ht⟩ := hbegun.current.led hled rfl htold (hnames ▸ hname)
  exact ⟨t, hread, htexts.trans ht⟩

/-- A listener is registered and told of a text, and then a build with another text goes on. -/
def Undertaking.examples : List Undertaking :=
  [.request (.listen ⟨"once", .leave⟩), .request (.addTextToAsset "line:1" (.text "Hi")),
    .build (.returning .greeting) {} 0]

theorem atBase_examples : ∀ u ∈ Undertaking.examples, u.AtBase 0 World.bilingual := by
  simp [Undertaking.examples, Undertaking.AtBase, Compiler.spares_returning, World.bilingual,
    World.project]

theorem read_unless_cleared_examples :
    ∃ h v t, (performEach 0 Undertaking.examples).exec World.bilingual = (.ok (), v) ∧
      Led (World.bilingual.localization 0).listeners Undertaking.examples h ∧
      v.journal.events = (told h).map (fun l => (l, 0)) ∧
      NoneFailed h ∧ "view" ∈ (v.localization 0).names ∧
      (watch "view" (World.bilingual.localization 0) h).read = some t ∧
      (v.localization 0).texts = t ∧
      t.map (fun e => (e.1, e.2.text?)) = [(.text "line:1", some "Hello")] := by
  obtain ⟨h, v, hexec, hled, hevents, hread⟩ :=
    read_unless_cleared 0 "view" Undertaking.examples World.bilingual (by decide) atBase_examples
  obtain ⟨hfine, hname, htexts⟩ :
      let v := ((performEach 0 Undertaking.examples).exec World.bilingual).2
      (∀ e ∈ v.journal.events, e.1.reaction ≠ .fail) ∧ "view" ∈ (v.localization 0).names ∧
        (v.localization 0).texts.map (fun e => (e.1, e.2.text?)) =
          [(.text "line:1", some "Hello")] := by decide +kernel
  rw [hexec] at hfine hname htexts
  have htold : NoneFailed h := fun l hl => hfine (l, 0) (by simp [hevents, hl])
  obtain ⟨t, ht, hcurrent⟩ := hread htold hname
  -- The table is not empty, and so it has not been emptied since it was read.
  have hkept : (v.localization 0).texts = t := by
    split at hcurrent
    · rw [hcurrent] at htexts
      cases htexts
    · exact hcurrent
  exact ⟨h, v, t, hexec, hled, hevents, htold, hname, ht, hkept, hkept ▸ htexts⟩

def Undertaking.told : List Undertaking :=
  [.request (.addTextToAsset "line:1" (.text "Hi"))]

/-- The listener stays registered and has been told of the text, and then the text is gone without
its being told. -/
def Unnoticed (u : Undertaking) : Prop :=
  let before := ((performEach 0 Undertaking.told).exec World.bilingual).2
  let after := ((u.perform 0).exec before).2
  (before.localization 0).texts = [(.text "line:1", .text "Hi")] ∧
    (after.localization 0).texts = [] ∧
    "view" ∈ (after.localization 0).names ∧ after.journal.events = before.journal.events

/-- A localization is emptied on request, or by a build of which the compiler returns no lines. -/
theorem unnoticed_examples :
    Unnoticed (.request .clear) ∧
      Unnoticed (.build (.returning { program := some (.bytes [1]) }) {} 0) :=
  ⟨⟨rfl, rfl, by decide +kernel, by decide +kernel⟩,
    ⟨rfl, List.isEmpty_iff.mp (by decide +kernel), by decide +kernel, by decide +kernel⟩⟩

end Dialogue.Localization
