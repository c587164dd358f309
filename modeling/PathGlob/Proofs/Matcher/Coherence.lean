/-
What a cache gives out over a history of requests. Every matcher in it is the one that its pattern
and options would be compiled to anew, no two entries are under the same pattern and options, and a
number is given to one matcher only. So a request is answered as a matcher built for it would answer,
and two requests are given the same matcher just if they ask for the same and nothing was dropped
between them.
-/
import Mathlib.Data.List.Dedup
import Mathlib.Data.List.Induction
import PathGlob.Matcher.Cache

namespace PathGlob.Cache

/-! ## Requests -/

/-- What a cache can be asked. -/
inductive Request where
  | get (o : Options) (pattern : String)
  | isMatch (o : Options) (pattern candidate : String)
  | clear
  deriving DecidableEq, Repr

/-- The cache behind a request. -/
def serve (c : Cache) : Request → Cache
  | .get o pattern => (c.get o pattern).2
  | .isMatch o pattern candidate => (c.isMatch .standard o pattern candidate).2
  | .clear => c.clear

/-- The cache behind requests made one after the other. -/
def serveAll (c : Cache) (rs : List Request) : Cache := rs.foldl serve c

/-- A new cache behind a history of requests. -/
def after (history : List Request) : Cache := serveAll {} history

/-- The pattern and options of which a request gets a matcher from the cache, if it gets any. -/
def Request.key? : Request → Option (String × Options)
  | get o pattern => if (Matcher.ofPattern o pattern).isOk then some (pattern, o) else none
  | isMatch o pattern _ =>
    if !o.nocache && (Matcher.ofPattern o pattern).isOk then some (pattern, o) else none
  | clear => none

/-- The requests since everything was dropped, latest first. -/
def recent (history : List Request) : List Request := history.reverse.takeWhile (· ≠ .clear)

/-- The patterns and options of which matchers were got since everything was dropped, as often as they
were. -/
def gotten (history : List Request) : List (String × Options) := (recent history).filterMap (·.key?)

theorem serveAll_append (c : Cache) (rs ts : List Request) :
    c.serveAll (rs ++ ts) = (c.serveAll rs).serveAll ts := List.foldl_append

theorem after_append (rs ts : List Request) : after (rs ++ ts) = (after rs).serveAll ts :=
  serveAll_append ..

theorem after_concat (history : List Request) (r : Request) :
    after (history ++ [r]) = (after history).serve r := after_append ..

theorem gotten_concat (history : List Request) (r : Request) : gotten (history ++ [r]) =
    if r = .clear then [] else r.key?.toList ++ gotten history := by
  unfold gotten recent
  rw [List.reverse_append, List.reverse_singleton, List.singleton_append, List.takeWhile_cons]
  by_cases hr : r = .clear
  · simp [hr]
  · cases hk : r.key? <;> simp [hr, hk]

/-! ## Coherent caches -/

/-- What an entry is found by. -/
def Entry.key (e : Entry) : String × Options := (e.pattern, e.options)

/-- Each entry is what its key compiles to, under a key and a number of its own. -/
structure Coherent (c : Cache) : Prop where
  matcher : ∀ e ∈ c.entries, Matcher.ofPattern e.options e.pattern = .ok e.handle.matcher
  keys : (c.entries.map Entry.key).Nodup
  serials : (c.entries.map (·.handle.serial)).Nodup
  built : ∀ e ∈ c.entries, e.handle.serial < c.built

variable {c c' : Cache} {o : Options} {pattern : String}

theorem find?_eq_none : c.find? o pattern = none ↔ (pattern, o) ∉ c.entries.map Entry.key := by
  simp [find?, Entry.key, List.find?_eq_none]

namespace Coherent

theorem empty (built : Nat) : Coherent { built } where
  matcher _ he := absurd he List.not_mem_nil
  keys := .nil
  serials := .nil
  built _ he := absurd he List.not_mem_nil

theorem find?_iff (h : Coherent c) {x : Handle} :
    c.find? o pattern = some x ↔ ⟨pattern, o, x⟩ ∈ c.entries := by
  unfold Cache.find?
  rw [Option.map_eq_some_iff]
  constructor
  · rintro ⟨⟨p, q, x⟩, he, rfl⟩
    have hkey := List.find?_some he
    simp only [decide_eq_true_eq] at hkey
    obtain ⟨rfl, rfl⟩ := hkey
    exact List.mem_of_find?_eq_some he
  · intro hmem
    cases hfind : c.entries.find? fun e => e.pattern = pattern ∧ e.options = o with
    | none =>
      have hno := List.find?_eq_none.1 hfind _ hmem
      simp at hno
    | some e =>
      -- the entry found has the same key, so it is the same entry
      have hkey := List.find?_some hfind
      simp only [decide_eq_true_eq] at hkey
      have hsame : e = ⟨pattern, o, x⟩ := List.inj_on_of_nodup_map h.keys
        (List.mem_of_find?_eq_some hfind) hmem (by simp [Entry.key, hkey])
      exact ⟨e, rfl, by rw [hsame]⟩

/-- A coherent cache with a further entry. -/
theorem insert (h : Coherent c) {m : Matcher} (hm : Matcher.ofPattern o pattern = .ok m)
    (hnew : c.find? o pattern = none) :
    Coherent { entries := ⟨pattern, o, ⟨c.built, m⟩⟩ :: c.entries, built := c.built + 1 } where
  matcher e he := by
    rcases List.mem_cons.1 he with rfl | he
    · exact hm
    · exact h.matcher e he
  keys := List.nodup_cons.2 ⟨find?_eq_none.1 hnew, h.keys⟩
  serials := by
    refine List.nodup_cons.2 ⟨fun hmem => ?_, h.serials⟩
    obtain ⟨e, he, hserial⟩ := List.mem_map.1 hmem
    have hlt := h.built e he
    simp only at hserial
    omega
  built e he := by
    rcases List.mem_cons.1 he with rfl | he
    · exact Nat.lt_succ_self _
    · exact Nat.lt_succ_of_lt (h.built e he)

end Coherent

/-! ## One request -/

@[simp] theorem serve_get (c : Cache) (o : Options) (pattern : String) :
    c.serve (.get o pattern) = (c.get o pattern).2 := rfl

/-- Asking for a verdict leaves the cache, or does to it what asking for the matcher does. -/
theorem serve_isMatch (c : Cache) (o : Options) (pattern candidate : String) :
    c.serve (.isMatch o pattern candidate) = if o.nocache then c else (c.get o pattern).2 := by
  rw [serve, Cache.isMatch]
  split <;> rfl

/-- What a request for a matcher does: it gives out what is kept, or fails as the pattern does and
leaves the cache, or keeps and gives out a matcher built for it. -/
theorem get_cases (c : Cache) (o : Options) (pattern : String) :
    (∃ x, c.find? o pattern = some x ∧ c.get o pattern = (.ok x, c)) ∨
    (c.find? o pattern = none ∧ ∃ f, Matcher.ofPattern o pattern = .error f ∧
      c.get o pattern = (.error f, c)) ∨
    (c.find? o pattern = none ∧ ∃ m, Matcher.ofPattern o pattern = .ok m ∧
      c.get o pattern = (.ok ⟨c.built, m⟩,
        { entries := ⟨pattern, o, ⟨c.built, m⟩⟩ :: c.entries, built := c.built + 1 })) := by
  unfold Cache.get
  cases hfind : c.find? o pattern with
  | some x => exact .inl ⟨x, rfl, rfl⟩
  | none =>
    cases hm : Matcher.ofPattern o pattern with
    | error f => exact .inr (.inl ⟨rfl, f, rfl, rfl⟩)
    | ok m => exact .inr (.inr ⟨rfl, m, rfl, rfl⟩)

theorem Request.key?_get {o : Options} {pattern : String} {m : Matcher}
    (hm : Matcher.ofPattern o pattern = .ok m) : (get o pattern).key? = some (pattern, o) := by
  simp [key?, hm, Except.isOk, Except.toBool]

theorem Request.key?_get_of_error {o : Options} {pattern : String} {f : Failure}
    (hf : Matcher.ofPattern o pattern = .error f) : (get o pattern).key? = none := by
  simp [key?, hf, Except.isOk, Except.toBool]

theorem Request.key?_isMatch (o : Options) (pattern candidate : String) :
    (isMatch o pattern candidate).key? = if o.nocache then none else (get o pattern).key? := by
  cases hn : o.nocache <;> simp [key?, hn]

namespace Coherent

/-- What a key is kept under is what it compiles to. -/
theorem ofPattern_of_find? (h : Coherent c) {x : Handle} (hx : c.find? o pattern = some x) :
    Matcher.ofPattern o pattern = .ok x.matcher :=
  h.matcher ⟨pattern, o, x⟩ (h.find?_iff.1 hx)

theorem get (h : Coherent c) (o : Options) (pattern : String) :
    Coherent (c.get o pattern).2 := by
  obtain ⟨x, -, hget⟩ | ⟨-, f, -, hget⟩ | ⟨hnew, m, hm, hget⟩ := c.get_cases o pattern
  · rw [hget]; exact h
  · rw [hget]; exact h
  · rw [hget]; exact h.insert hm hnew

theorem serve (h : Coherent c) (r : Request) : Coherent (c.serve r) := by
  cases r with
  | get o pattern => exact h.get o pattern
  | isMatch o pattern candidate =>
    rw [serve_isMatch]
    split
    · exact h
    · exact h.get o pattern
  | clear => exact empty c.built

/-- A coherent cache stays so. -/
theorem serveAll (h : Coherent c) (rs : List Request) : Coherent (c.serveAll rs) := by
  induction rs generalizing c with
  | nil => exact h
  | cons r rs ih => exact ih (h.serve r)

/-- A failure and a matcher are those of the pattern. -/
theorem map_get (h : Coherent c) (o : Options) (pattern : String) :
    (c.get o pattern).1.map (·.matcher) = Matcher.ofPattern o pattern := by
  obtain ⟨x, hx, hget⟩ | ⟨-, f, hf, hget⟩ | ⟨-, m, hm, hget⟩ := c.get_cases o pattern
  · rw [hget, h.ofPattern_of_find? hx]; rfl
  · rw [hget, hf]; rfl
  · rw [hget, hm]; rfl

/-- What was given out is kept. -/
theorem mem_of_get (h : Coherent c) {x : Handle} (hx : (c.get o pattern).1 = .ok x) :
    ⟨pattern, o, x⟩ ∈ (c.get o pattern).2.entries := by
  obtain ⟨y, hy, hget⟩ | ⟨-, f, -, hget⟩ | ⟨-, m, -, hget⟩ := c.get_cases o pattern
  · rw [hget] at hx ⊢
    cases hx
    exact h.find?_iff.1 hy
  · rw [hget] at hx; cases hx
  · rw [hget] at hx ⊢
    cases hx
    exact List.mem_cons_self

theorem keys_get (h : Coherent c) (o : Options) (pattern : String) :
    (c.get o pattern).2.entries.map Entry.key =
      ((Request.get o pattern).key?.toList ++ c.entries.map Entry.key).dedup := by
  obtain ⟨x, hx, hget⟩ | ⟨-, f, hf, hget⟩ | ⟨hnew, m, hm, hget⟩ := c.get_cases o pattern
  · have hmem : (pattern, o) ∈ c.entries.map Entry.key :=
      List.mem_map.2 ⟨_, h.find?_iff.1 hx, rfl⟩
    rw [hget, Request.key?_get (h.ofPattern_of_find? hx), Option.toList_some,
      List.singleton_append, List.dedup_cons_of_mem hmem, h.keys.dedup]
  · rw [hget, Request.key?_get_of_error hf, Option.toList_none, List.nil_append, h.keys.dedup]
  · rw [hget, Request.key?_get hm, Option.toList_some, List.singleton_append,
      List.dedup_cons_of_notMem (find?_eq_none.1 hnew), h.keys.dedup, List.map_cons]
    rfl

/-- The keys behind a request: none after a drop, else the key of the request and those before. -/
theorem keys_serve (h : Coherent c) (r : Request) : (c.serve r).entries.map Entry.key =
    if r = .clear then [] else (r.key?.toList ++ c.entries.map Entry.key).dedup := by
  cases r with
  | get o pattern => simpa using h.keys_get o pattern
  | isMatch o pattern candidate =>
    rw [serve_isMatch, Request.key?_isMatch]
    cases o.nocache with
    | true => simp [h.keys.dedup]
    | false => simpa using h.keys_get o pattern
  | clear => rfl

end Coherent

/-! ## What a run keeps -/

/-- A cache as it may follow another: it has built no fewer matchers, and what it has besides was built
since. -/
structure Grows (c c' : Cache) : Prop where
  built : c.built ≤ c'.built
  entries : ∀ e ∈ c'.entries, e ∈ c.entries ∨ c.built ≤ e.handle.serial

namespace Grows

theorem refl (c : Cache) : Grows c c := ⟨Nat.le_refl _, fun _ he => .inl he⟩

theorem trans {c'' : Cache} (h : Grows c c') (h' : Grows c' c'') : Grows c c'' where
  built := Nat.le_trans h.built h'.built
  entries e he := by
    rcases h'.entries e he with he | hle
    · exact h.entries e he
    · exact .inr (Nat.le_trans h.built hle)

theorem get (c : Cache) (o : Options) (pattern : String) : Grows c (c.get o pattern).2 := by
  obtain ⟨x, -, hget⟩ | ⟨-, f, -, hget⟩ | ⟨-, m, -, hget⟩ := c.get_cases o pattern
  · rw [hget]; exact refl c
  · rw [hget]; exact refl c
  · rw [hget]
    refine ⟨Nat.le_succ _, fun e he => ?_⟩
    rcases List.mem_cons.1 he with rfl | he
    · exact .inr (Nat.le_refl _)
    · exact .inl he

theorem clear (c : Cache) : Grows c c.clear :=
  ⟨Nat.le_refl _, fun _ he => absurd he List.not_mem_nil⟩

theorem serve (c : Cache) (r : Request) : Grows c (c.serve r) := by
  cases r with
  | get o pattern => exact get c o pattern
  | isMatch o pattern candidate =>
    rw [serve_isMatch]
    split
    · exact refl c
    · exact get c o pattern
  | clear => exact clear c

theorem serveAll (c : Cache) (rs : List Request) : Grows c (c.serveAll rs) := by
  induction rs generalizing c with
  | nil => exact refl c
  | cons r rs ih => exact (serve c r).trans (ih (c.serve r))

end Grows

theorem suffix_get (c : Cache) (o : Options) (pattern : String) :
    c.entries <:+ (c.get o pattern).2.entries := by
  obtain ⟨x, -, hget⟩ | ⟨-, f, -, hget⟩ | ⟨-, m, -, hget⟩ := c.get_cases o pattern
  · exact hget ▸ List.suffix_rfl
  · exact hget ▸ List.suffix_rfl
  · exact hget ▸ List.suffix_cons ..

theorem suffix_serve (c : Cache) {r : Request} (hr : r ≠ .clear) :
    c.entries <:+ (c.serve r).entries := by
  cases r with
  | get o pattern => exact c.suffix_get o pattern
  | isMatch o pattern candidate =>
    rw [serve_isMatch]
    split
    · exact List.suffix_rfl
    · exact c.suffix_get o pattern
  | clear => exact absurd rfl hr

/-- While nothing is dropped the entries stay. -/
theorem suffix_serveAll (c : Cache) {rs : List Request} (hrs : .clear ∉ rs) :
    c.entries <:+ (c.serveAll rs).entries := by
  induction rs generalizing c with
  | nil => exact List.suffix_rfl
  | cons r rs ih =>
    rw [List.mem_cons, not_or] at hrs
    exact (c.suffix_serve (Ne.symm hrs.1)).trans (ih (c.serve r) hrs.2)

/-- After a drop all that is kept was built since. -/
theorem built_le_of_clear (c : Cache) {rs : List Request} (hrs : .clear ∈ rs) {e : Entry}
    (he : e ∈ (c.serveAll rs).entries) : c.built ≤ e.handle.serial := by
  obtain ⟨earlier, later, rfl⟩ := List.append_of_mem hrs
  rw [serveAll_append] at he
  have hbuilt : c.built ≤ (c.serveAll earlier).clear.built := (Grows.serveAll c earlier).built
  rcases (Grows.serveAll (c.serveAll earlier).clear later).entries e he with hnone | hle
  · exact absurd hnone List.not_mem_nil
  · exact Nat.le_trans hbuilt hle

/-! ## Histories -/

theorem coherent_after (history : List Request) : Coherent (after history) :=
  (Coherent.empty 0).serveAll history

/-- The keys kept are those of which matchers were got, each once. -/
theorem keys_after (history : List Request) :
    (after history).entries.map Entry.key = (gotten history).dedup := by
  induction history using List.reverseRecOn with
  | nil => rfl
  | append_singleton history r ih =>
    rw [after_concat, (coherent_after history).keys_serve, ih, gotten_concat]
    split
    · rfl
    · rw [List.dedup_append, List.dedup_idem, List.dedup_append]

theorem size_after (history : List Request) :
    (after history).size = (gotten history).dedup.length := by
  rw [size, ← keys_after, List.length_map]

/-- Two requests are given the same matcher just if they ask for the same and nothing was dropped
between them. -/
theorem serial_eq_iff (before between : List Request) {o o' : Options} {pattern pattern' : String}
    {x x' : Handle} (hx' : ((after before).get o' pattern').1 = .ok x')
    (hx : ((after (before ++ .get o' pattern' :: between)).get o pattern).1 = .ok x) :
    x.serial = x'.serial ↔ pattern = pattern' ∧ o = o' ∧ .clear ∉ between := by
  have hc' := coherent_after before
  have hc := coherent_after (before ++ .get o' pattern' :: between)
  have hmem' := hc'.mem_of_get hx'
  have hmem := hc.mem_of_get hx
  have hlt := (hc'.get o' pattern').built _ hmem'
  have hend := hc.get o pattern
  -- the cache at the end, as it follows the one behind the earlier request
  have hrun : ((after (before ++ .get o' pattern' :: between)).get o pattern).2 =
      ((after before).get o' pattern').2.serveAll (between ++ [.get o pattern]) := by
    rw [after_append, serveAll_append]; rfl
  rw [hrun] at hmem hend
  by_cases hclear : .clear ∈ between
  · have hle := built_le_of_clear _ (List.mem_append_left _ hclear) hmem
    simp only [hclear, not_true_eq_false, and_false, iff_false]
    simp only at hlt hle
    omega
  · have hno : .clear ∉ between ++ [.get o pattern] := by simpa using hclear
    have hkept := (suffix_serveAll ((after before).get o' pattern').2 hno).subset hmem'
    constructor
    · intro hserial
      have hsame : Entry.mk pattern o x = ⟨pattern', o', x'⟩ :=
        List.inj_on_of_nodup_map hend.serials hmem hkept hserial
      cases hsame
      exact ⟨rfl, rfl, hclear⟩
    · rintro ⟨rfl, rfl, -⟩
      have hsame : Entry.mk pattern o x = ⟨pattern, o, x'⟩ :=
        List.inj_on_of_nodup_map hend.keys hmem hkept rfl
      cases hsame
      rfl

/-- What a cache answers after any requests. It fails just as compiling the pattern does and is then
left as it was; else it gives out a matcher with the verdicts of one built anew, and the one given out
earlier just if that was for the same pattern and options and nothing was dropped since. It keeps one
matcher for each pattern and options of which one was got since the last drop, and its own verdicts are
those of a matcher built anew. -/
theorem get_after (history : List Request) (o : Options) (pattern : String) :
    (match Matcher.ofPattern o pattern with
      | .error f => (after history).get o pattern = (.error f, after history)
      | .ok m => ∃ x, ((after history).get o pattern).1 = .ok x ∧
          (∀ e candidate, x.matcher.isMatch e candidate = m.isMatch e candidate) ∧
          ∀ before between o' pattern' x', history = before ++ .get o' pattern' :: between →
            ((after before).get o' pattern').1 = .ok x' →
            (x.serial = x'.serial ↔ pattern = pattern' ∧ o = o' ∧ .clear ∉ between)) ∧
    (after history).size = (gotten history).dedup.length ∧
    ∀ e candidate,
      ((after history).isMatch e o pattern candidate).1 =
        (Matcher.ofPattern o pattern).map (·.isMatch e candidate) ∧
      (o.nocache → ((after history).isMatch e o pattern candidate).2 = after history) := by
  have hc := coherent_after history
  have hmap := hc.map_get o pattern
  refine ⟨?_, size_after history, fun e candidate => ?_⟩
  · obtain ⟨x, hx, hget⟩ | ⟨-, f, hf, hget⟩ | ⟨-, m, hm, hget⟩ := (after history).get_cases o pattern
    · rw [hc.ofPattern_of_find? hx]
      refine ⟨x, by rw [hget], fun _ _ => rfl, ?_⟩
      rintro before between o' pattern' x' rfl hx'
      exact serial_eq_iff before between hx' (by rw [hget])
    · rw [hf]; exact hget
    · rw [hm]
      refine ⟨⟨_, m⟩, by rw [hget], fun _ _ => rfl, ?_⟩
      rintro before between o' pattern' x' rfl hx'
      exact serial_eq_iff before between hx' (by rw [hget])
  · unfold Cache.isMatch
    split
    · exact ⟨rfl, fun _ => rfl⟩
    · next hn =>
      refine ⟨?_, fun h => absurd h hn⟩
      change ((after history).get o pattern).1.map (·.matcher.isMatch e candidate) = _
      rw [← hmap]
      cases ((after history).get o pattern).1 <;> rfl

/-- The options are part of what a matcher is found by, and a failure keeps none. -/
theorem get_after_failure :
    let history := [.get {} "*.md", .get { dot := true } "*.md", .get {} "a)"]
    (after history).size = 2 ∧ ∃ x x', ((after []).get {} "*.md").1 = .ok x ∧
      ((after history).get {} "*.md").1 = .ok x' ∧ x'.serial = x.serial := by
  intro history
  obtain ⟨hget, hsize, -⟩ := get_after history {} "*.md"
  refine ⟨hsize.trans (by decide +kernel), ?_⟩
  cases hm : Matcher.ofPattern {} "*.md" with
  | error f =>
    have hok : (Matcher.ofPattern {} "*.md").isOk = true := by decide +kernel
    rw [hm] at hok
    cases hok
  | ok m =>
    rw [hm] at hget
    obtain ⟨x', hx', -, hshared⟩ := hget
    have hfirst := (coherent_after []).map_get {} "*.md"
    cases hx : ((after []).get {} "*.md").1 with
    | error f => rw [hx, hm] at hfirst; cases hfirst
    | ok x => exact ⟨x, x', rfl, hx', (hshared [] _ {} "*.md" x rfl hx).2 ⟨rfl, rfl, by simp⟩⟩

end PathGlob.Cache
