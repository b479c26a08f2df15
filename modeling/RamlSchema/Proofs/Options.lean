/-
RamlSchema/Proofs/Options.lean

Options written as JSON, read back and laid over each other.

An object of options has a member for each of the settings that a source mentions, in
any order, and may have members of other names between them (`Settings.ListedIn`).
Reading such an object takes one member after another: a member of the three names
fills the field that is still empty, and a member of another name is passed over,
whatever its value.

Main result: `options_layered`, by which options survive the way through a text, and
the options of a run are, field by field, those of the switches, of the file, or the
defaults.
-/
import RamlSchema.Command.Run
import RamlSchema.Files.Tree
import RamlSchema.Proofs.Json.Reading

namespace RamlSchema

open Json

namespace Settings

/-- The names of the fields. -/
def fieldNames : List String :=
  ["schema-uri", "on-cycle", "max-depth"]

/-- The settings as members of an object, in the order of the fields. -/
def members (s : Settings) : Members Json :=
  (s.schemaUri.map fun u => ("schema-uri", .str u)).toList
    ++ (s.onCycle.map fun p => ("on-cycle", .str p.name)).toList
    ++ (s.maxDepth.map fun d => ("max-depth", .num (.whole d))).toList

/-- Of the members, those with the name of a field are the settings, in some order. -/
def ListedIn (s : Settings) (ms : List (String × Json)) : Prop :=
  (ms.filter fun m => m.1 ∈ fieldNames).Perm s.members

/-- The depth is one of sixty-four bits. -/
def InRange (s : Settings) : Prop :=
  ∀ d, s.maxDepth = some d → d < 2 ^ 64

variable {s : Settings}

/-! ### Members -/

theorem nodup_keys_members (s : Settings) : (Members.keys s.members).Nodup := by
  rcases s with ⟨u, c, d⟩
  cases u <;> cases c <;> cases d <;> simp [members, Members.keys]

/-- What is left when the first member of a list is taken is left of the settings, too. -/
theorem perm_members_cons {k : String} {v : Json} {ms : Members Json}
    (h : List.Perm ((k, v) :: ms) s.members) :
    s.members.get? k = some v ∧ List.Perm ms (s.members.erase k) := by
  have hkeys : (Members.keys ((k, v) :: ms)).Nodup :=
    (h.map Prod.fst).nodup_iff.mpr s.nodup_keys_members
  have hget : Members.get? ((k, v) :: ms) k = some v := if_pos rfl
  refine ⟨Members.get?_perm h hkeys k ▸ hget, ?_⟩
  have herase : Members.erase ((k, v) :: ms) k = ms := by
    have hk := (List.nodup_cons.mp hkeys).1
    have hms : ∀ m ∈ ms, m.1 ≠ k := fun m hm heq => hk (List.mem_map.mpr ⟨m, hm, heq⟩)
    simpa [Members.erase] using hms
  have hfilter := h.filter fun m => decide (m.1 ≠ k)
  rw [← Members.erase, herase] at hfilter
  exact hfilter

/-! ### Values -/

theorem takes_readUri (u : String) : Takes readUri (renderString u) u := by
  intro p rest hp _
  have hstring := readString_escaped .full u.toList rest
  rw [readUri, skipBlanks_renderString hp]
  show (readString .full _).map _ = _
  rw [hstring]
  simp [Except.map]

theorem takes_readPolicy (c : CyclePolicy) : Takes readPolicy (renderString c.name) c := by
  intro p rest hp hrest
  have hname := takes_readUri c.name [] rest blanks_nil hrest
  rw [List.nil_append] at hname
  rw [readPolicy, skipBlanks_append hp]
  show readPolicyName (renderString c.name ++ rest) = _
  simp [readPolicyName, hname, CyclePolicy.ofName?_name, bind, Except.bind, pure, Except.pure]

theorem takes_readDepth {n : Nat} (hn : n < 2 ^ 64) : Takes readDepth (renderWhole n) n := by
  intro p rest hp hrest
  have hwrites := Numeral.writes_whole n
  have hnumber : (Numeral.ofWhole n).number? = some (.whole n) :=
    Numeral.number?_ofWhole (by omega) (by omega)
  obtain ⟨c, r, hcons, hc⟩ := hwrites.exists_cons
  have htest : (c = '-' || c.isDigit) = true := by simpa using hc
  have hread : readNumber .full (c :: (r ++ rest)) = .ok (.num (.whole n), rest) := by
    rw [← List.cons_append, ← hcons, readNumber, Numeral.scan_of_writes hwrites hrest]
    simp [hnumber, bind, Except.bind, pure, Except.pure]
  rw [readDepth, skipBlanks_append hp, hcons, List.cons_append,
    skipBlanks_cons (isJsonBlank_of_numeral hc)]
  dsimp only
  rw [if_pos htest, hread]
  rfl

/-! ### Members of an object -/

theorem takes_takeUri (s : Settings) (u : String) :
    Takes (takeUri s) (renderString u) { s with schemaUri := some u } :=
  (takes_readUri u).map fun u => ({ s with schemaUri := some u } : Settings)

theorem takes_takePolicy (s : Settings) (c : CyclePolicy) :
    Takes (takePolicy s) (renderString c.name) { s with onCycle := some c } :=
  (takes_readPolicy c).map fun c => ({ s with onCycle := some c } : Settings)

theorem takes_takeDepth (s : Settings) {n : Nat} (hn : n < 2 ^ 64) :
    Takes (takeDepth s) (renderWhole n) { s with maxDepth := some n } :=
  (takes_readDepth hn).map fun n => ({ s with maxDepth := some n } : Settings)

/-- The value of a field is taken where the field is empty. -/
theorem takes_takeMember {s' : Settings} {k : String} {b a t : List Char} (present : Bool)
    {take : Settings → List Char → Read Settings}
    (hdispatch : ∀ cs r, readKey .full cs = .ok (k, r) → takeMember s cs = takeOnce present take s r)
    (hempty : present = false) (hb : Blanks b) (ha : Blanks a) (h : Takes (take s) t s') :
    Takes (takeMember s) (renderString k ++ (b ++ ':' :: (a ++ t))) s' := by
  intro p rest hp hrest
  have hkey := readKey_renderString .full hp k (b ++ ':' :: (a ++ (t ++ rest)))
  have hcolon := readColon_append hb (a ++ (t ++ rest))
  have hvalue := h a rest ha hrest
  simp only [List.append_assoc, List.cons_append]
  rw [hdispatch _ _ hkey, takeOnce, hempty]
  simp [hcolon, hvalue, bind, Except.bind]

/-- Some settings have been read and the others are in the members still to come; together
they are the ones to be read. -/
structure Remaining (read all : Settings) (ms : List (String × Json)) (s : Settings) : Prop where
  listed : s.ListedIn ms
  inRange : s.InRange
  override : read.override s = all
  schemaUri : read.schemaUri = none ∨ s.schemaUri = none
  onCycle : read.onCycle = none ∨ s.onCycle = none
  maxDepth : read.maxDepth = none ∨ s.maxDepth = none

variable {read all : Settings} {k : String} {v : Json} {ms : List (String × Json)}

theorem get?_members (s : Settings) :
    s.members.get? "schema-uri" = s.schemaUri.map .str ∧
      s.members.get? "on-cycle" = (s.onCycle.map fun c => .str c.name) ∧
      s.members.get? "max-depth" = (s.maxDepth.map fun d => .num (.whole d)) := by
  rcases s with ⟨u, c, d⟩
  cases u <;> cases c <;> cases d <;> simp [members, Members.get?]

theorem erase_members (s : Settings) :
    s.members.erase "schema-uri" = { s with schemaUri := none }.members ∧
      s.members.erase "on-cycle" = { s with onCycle := none }.members ∧
      s.members.erase "max-depth" = { s with maxDepth := none }.members := by
  rcases s with ⟨u, c, d⟩
  cases u <;> cases c <;> cases d <;> simp [members, Members.erase]

/-- Without further members, all has been read. -/
theorem Remaining.eq_of_nil (h : Remaining read all [] s) : read = all := by
  have hs : s = {} := by
    have hnil : s.members = [] := List.Perm.eq_nil h.listed.symm
    rcases s with ⟨u, c, d⟩
    cases u <;> cases c <;> cases d <;> simp_all [members]
  rw [← h.override, hs]
  cases read
  simp [Settings.override]

/-- A member with the name of a field is taken into the field. -/
theorem Remaining.takes_field (h : Remaining read all ((k, v) :: ms) s) (hk : k ∈ fieldNames) :
    ∃ read' s', Remaining read' all ms s' ∧ ∀ b a t, Blanks b → Blanks a → Spells v t →
      Takes (takeMember read) (renderString k ++ (b ++ ':' :: (a ++ t))) read' := by
  have hlisted : List.Perm ((k, v) :: ms.filter fun m => m.1 ∈ fieldNames) s.members := by
    have hlisted := h.listed
    rwa [ListedIn, List.filter_cons_of_pos (by simpa using hk)] at hlisted
  obtain ⟨hget, herase⟩ := perm_members_cons hlisted
  obtain ⟨huri, hcycle, hdepth⟩ := s.get?_members
  obtain ⟨huri', hcycle', hdepth'⟩ := s.erase_members
  simp only [fieldNames, List.mem_cons, List.not_mem_nil, or_false] at hk
  rcases hk with rfl | rfl | rfl
  · obtain ⟨u, hu, rfl⟩ := Option.map_eq_some_iff.mp (huri.symm.trans hget)
    rw [huri'] at herase
    have hfree := h.schemaUri.resolve_right (by simp [hu])
    refine ⟨{ read with schemaUri := some u }, { s with schemaUri := none },
      ⟨herase, h.inRange, ?_, .inr rfl, h.onCycle, h.maxDepth⟩, ?_⟩
    · rw [← h.override]
      simp [Settings.override, hu]
    · rintro b a t hb ha ⟨⟩
      exact takes_takeMember read.schemaUri.isSome
        (fun cs r hkey => by simp [takeMember, hkey, bind, Except.bind])
        (by simp [hfree]) hb ha (takes_takeUri read u)
  · obtain ⟨c, hc, rfl⟩ := Option.map_eq_some_iff.mp (hcycle.symm.trans hget)
    rw [hcycle'] at herase
    have hfree := h.onCycle.resolve_right (by simp [hc])
    refine ⟨{ read with onCycle := some c }, { s with onCycle := none },
      ⟨herase, h.inRange, ?_, h.schemaUri, .inr rfl, h.maxDepth⟩, ?_⟩
    · rw [← h.override]
      simp [Settings.override, hc]
    · rintro b a t hb ha ⟨⟩
      exact takes_takeMember read.onCycle.isSome
        (fun cs r hkey => by simp [takeMember, hkey, bind, Except.bind])
        (by simp [hfree]) hb ha (takes_takePolicy read c)
  · obtain ⟨d, hd, rfl⟩ := Option.map_eq_some_iff.mp (hdepth.symm.trans hget)
    rw [hdepth'] at herase
    have hfree := h.maxDepth.resolve_right (by simp [hd])
    refine ⟨{ read with maxDepth := some d }, { s with maxDepth := none },
      ⟨herase, by simp [InRange], ?_, h.schemaUri, h.onCycle, .inr rfl⟩, ?_⟩
    · rw [← h.override]
      simp [Settings.override, hd]
    · rintro b a t hb ha ⟨⟩
      exact takes_takeMember read.maxDepth.isSome
        (fun cs r hkey => by simp [takeMember, hkey, bind, Except.bind])
        (by simp [hfree]) hb ha (takes_takeDepth read (h.inRange d hd))

/-- A member of another name is passed over, with its value. -/
theorem takes_other {b a t : List Char} (hk : k ∉ fieldNames) (hb : Blanks b) (ha : Blanks a)
    (ht : Spells v t) : Takes (takeMember s) (renderString k ++ (b ++ ':' :: (a ++ t))) s := by
  intro p rest hp hrest
  have hkey := readKey_renderString .full hp k (b ++ ':' :: (a ++ (t ++ rest)))
  have hcolon := readColon_append hb (a ++ (t ++ rest))
  have hskim := takes_skimValue ht a rest ha hrest
  simp only [fieldNames, List.mem_cons, List.not_mem_nil, or_false, not_or] at hk
  simp [takeMember, hkey, hk, hcolon, hskim, bind, Except.bind, pure, Except.pure]

/-- **One member is taken**, and the members behind it hold what is then still to come. -/
theorem Remaining.takes_member (h : Remaining read all ((k, v) :: ms) s) :
    ∃ read' s', Remaining read' all ms s' ∧ ∀ b a t, Blanks b → Blanks a → Spells v t →
      Takes (takeMember read) (renderString k ++ (b ++ ':' :: (a ++ t))) read' := by
  by_cases hk : k ∈ fieldNames
  · exact h.takes_field hk
  · refine ⟨read, s, { h with listed := ?_ }, fun b a t => takes_other hk⟩
    have hlisted := h.listed
    rwa [ListedIn, List.filter_cons_of_neg (by simpa using hk)] at hlisted

/-- **All members are taken**, and the settings are read. -/
theorem takesParts_takeMember {read all s : Settings} {ms : List (String × Json)}
    {t : List Char} (ht : SpellsMembers ms t) (h : Remaining read all ms s) :
    TakesParts '\x7d' takeMember read t all := by
  match ht with
  | .last hb ha hv hq =>
    obtain ⟨read', s', h', htakes⟩ := h.takes_member
    exact h'.eq_of_nil ▸ .last (htakes _ _ _ hb ha hv) hq
  | .more hb ha hv hq hp hrest =>
    obtain ⟨read', s', h', htakes⟩ := h.takes_member
    exact .more (htakes _ _ _ hb ha hv) hq hp (takesParts_takeMember hrest h')

/-- **An object of options is read as the settings that it lists**, whatever the order, the
blanks and the members of other names. -/
theorem read_of_spells {p t q : List Char} (ht : Spells (.obj ms) t) (hp : Blanks p)
    (hq : Blanks q) (hlisted : s.ListedIn ms) (hrange : s.InRange) :
    Settings.read (p ++ (t ++ q)) = .ok s := by
  have hstart : Remaining {} s ms s := {
    listed := hlisted
    inRange := hrange
    override := by simp [Settings.override]
    schemaUri := .inl rfl
    onCycle := .inl rfl
    maxDepth := .inl rfl }
  have hread : ∃ u, t = '\x7b' :: u ∧
      readContainer '\x7d' takeMember {} (u ++ q) = .ok (s, q) := by
    cases ht with
    | emptyObj hp =>
      have hs : s = {} := hstart.eq_of_nil.symm
      exact ⟨_, rfl, hs ▸ readContainer_empty (.inr rfl) hp⟩
    | obj hp hmembers =>
      exact ⟨_, rfl, readContainer_of_takes (.inr rfl) (takesParts_takeMember hmembers hstart) hp
        hmembers.exists_cons⟩
  obtain ⟨u, rfl, hu⟩ := hread
  rw [Settings.read, skipBlanks_append hp, List.cons_append, skipBlanks_cons rfl]
  show Except.bind (readContainer '\x7d' takeMember {} (u ++ q)) expectEnd = _
  rw [hu]
  exact expectEnd_blanks hq s

/-! ### Files -/

/-- A file that holds a text is read as the text. -/
theorem ofBytes_toUTF8 (text : String) : ofBytes text.toUTF8 = Settings.read text.toList := by
  have hdecode : String.fromUTF8? text.toUTF8 = some text := dif_pos text.isValidUTF8
  rw [ofBytes, looseText?, hdecode]

end Settings

/-! ### Layers -/

/-- The settings are fields of the options. -/
structure Settings.Among (s : Settings) (o : Options) : Prop where
  schemaUri : ∀ u, s.schemaUri = some u → u = o.schemaUri
  onCycle : ∀ c, s.onCycle = some c → c = o.onCycle
  maxDepth : ∀ d, s.maxDepth = some d → d = o.maxDepth

/-- All fields of the options. -/
def Options.settings (o : Options) : Settings :=
  ⟨some o.schemaUri, some o.onCycle, some o.maxDepth⟩

theorem Options.listedIn_settings (o : Options) : o.settings.ListedIn o.settings.members := by
  simp [Settings.ListedIn, Settings.members, Options.settings, Settings.fieldNames]

/-- With a file that holds settings, the switches go over them. -/
theorem run_readOptions {a : Arguments} {path : String} {tree : Tree} {bytes : ByteArray}
    {s : Settings} (hconfig : a.config = some path) (hfile : tree.read path = .ok bytes)
    (hbytes : Settings.ofBytes bytes = .ok s) :
    (readOptions a : StateM Tree _).run tree = (.ok (a.optionsOver s), tree) := by
  have hdisk : (Disk.read path : StateM Tree _).run tree = (.ok bytes, tree) :=
    congrArg (·, tree) hfile
  have hrun : (readConfig path : StateM Tree _).run tree = (.ok s, tree) := by
    rw [readConfig, StateT.run_bind, hdisk]
    show (((Settings.ofBytes _).mapError fun _ => Problem.parseConfig path), tree) = _
    rw [hbytes]
    rfl
  rw [readOptions, hconfig]
  dsimp only
  rw [StateT.run_bind, hrun]
  rfl

/-- **Options are kept by their text, and layered field by field.**  Written as JSON they are
read back.  Of an object that lists some of their fields, in any order and among members of
other names, these fields are read, and the defaults for the others.  With such a file, a run
has for each field the value of its switch, else the file's, else the default; without a
file, the value of the switch or the default. -/
theorem options_layered (o : Options) (ho : o.maxDepth < 2 ^ 64) :
    Options.read o.toJson.text = .ok o ∧
      (∀ (s : Settings) (ms : List (String × Json)) (p t q : List Char),
        s.Among o → s.ListedIn ms → Blanks p → Spells (.obj ms) t → Blanks q →
          Options.read (String.ofList (p ++ (t ++ q))) = .ok (({} : Options).override s) ∧
          ∀ (a : Arguments) (path : String) (tree : Tree), a.config = some path →
            tree.read path = .ok (String.ofList (p ++ (t ++ q))).toUTF8 →
            (readOptions a : StateM Tree _).run tree = (.ok
              { schemaUri := (a.settings.schemaUri <|> s.schemaUri).getD draft04Uri
                onCycle := (a.settings.onCycle <|> s.onCycle).getD .reference
                maxDepth := (a.settings.maxDepth <|> s.maxDepth).getD 128 }, tree)) ∧
      ∀ (a : Arguments) (tree : Tree), a.config = none →
        (readOptions a : StateM Tree _).run tree = (.ok
          { schemaUri := a.settings.schemaUri.getD draft04Uri
            onCycle := a.settings.onCycle.getD .reference
            maxDepth := a.settings.maxDepth.getD 128 }, tree) := by
  have hread : ∀ (s : Settings) (ms : List (String × Json)) (p t q : List Char),
      s.Among o → s.ListedIn ms → Blanks p → Spells (.obj ms) t → Blanks q →
        Settings.read (p ++ (t ++ q)) = .ok s := by
    intro s ms p t q hs hlisted hp ht hq
    exact Settings.read_of_spells ht hp hq hlisted fun d hd => hs.maxDepth d hd ▸ ho
  refine ⟨?_, ?_, ?_⟩
  · have hall := hread o.settings o.settings.members [] o.toJson.render []
      ⟨fun u hu => (Option.some.inj hu).symm, fun c hc => (Option.some.inj hc).symm,
        fun d hd => (Option.some.inj hd).symm⟩
      o.listedIn_settings blanks_nil (spells_render o.toJson) blanks_nil
    rw [List.nil_append, List.append_nil] at hall
    rw [Options.read, Json.text, String.toList_ofList, hall]
    rfl
  · intro s ms p t q hs hlisted hp ht hq
    have hsettings := hread s ms p t q hs hlisted hp ht hq
    refine ⟨?_, ?_⟩
    · rw [Options.read, String.toList_ofList, hsettings]
      rfl
    · intro a path tree hconfig hfile
      have hbytes : Settings.ofBytes (String.ofList (p ++ (t ++ q))).toUTF8 = .ok s := by
        rw [Settings.ofBytes_toUTF8, String.toList_ofList, hsettings]
      rw [run_readOptions hconfig hfile hbytes, Arguments.optionsOver_eq]
      rfl
  · intro a tree hconfig
    rw [readOptions, hconfig]
    rfl

/-- Two of the fields, with other members before, between and behind them. -/
def scatteredMembers : List (String × Json) :=
  [("note", .obj [("schema-uri", .null), ("weights", .arr [.num (.double 0.5), .arr []])]),
    ("schema-uri", .str "urn:\"ä\"\n"), ("note", .bool true), ("on-cycle", .str "error"),
    ("Max-Depth", .num (.whole (-1)))]

/-- The file has the dialect, the switch the policy, and neither has the depth. -/
theorem options_layered_scattered :
    let file := (Json.obj scatteredMembers).text
    let tree : Tree := { entries := [(["options.json"], .file file.toUTF8)] }
    let a : Arguments :=
      { file := "types.json", config := some "options.json",
        settings := { onCycle := some .reference } }
    Options.read file = .ok { schemaUri := "urn:\"ä\"\n", onCycle := .error } ∧
      (readOptions a : StateM Tree _).run tree = (.ok { schemaUri := "urn:\"ä\"\n" }, tree) := by
  intro file tree a
  obtain ⟨-, hobject, -⟩ :=
    options_layered { schemaUri := "urn:\"ä\"\n", onCycle := .error } (by decide)
  have hscattered := hobject { schemaUri := some "urn:\"ä\"\n", onCycle := some .error }
    scatteredMembers [] (Json.obj scatteredMembers).render []
    ⟨fun u hu => (Option.some.inj hu).symm, fun c hc => (Option.some.inj hc).symm, nofun⟩
    (by simp [Settings.ListedIn, scatteredMembers, Settings.fieldNames, Settings.members,
      CyclePolicy.name, List.Perm.refl])
    blanks_nil (spells_render _) blanks_nil
  rw [List.nil_append, List.append_nil] at hscattered
  exact ⟨hscattered.1, hscattered.2 a "options.json" tree rfl (by rfl)⟩

end RamlSchema
