import Mathlib.Data.List.Pairwise
import DwarfExpr.MinidumpContexts
import DwarfExpr.MinidumpListStream

/-!
# The order of the directory

`Read` parses the entries of the directory in their order. When each handled stream type
occurs at most once and no read fails, every parse takes its own part of the file and adds
it to the state, and what two parses add does not depend on which comes first.
-/

namespace DwarfExpr

open InputStream (slice openAt)

/-- The context at a location, if `MinidumpContext::Read` succeeds there. -/
def contextAt (image : List UInt8) (loc : MDLocationDescriptor) : Option MinidumpContext :=
  match MinidumpContext.read loc (.ofImage image) with
  | some (c, _) => c
  | none => none

/-- The threads up to the first whose context is rejected. -/
def reachedThreads (image : List UInt8) (threads : List MDRawThread) : List MDRawThread :=
  threads.takeWhile fun thread => (contextAt image (MDRawThread.threadContext thread)).isSome

/-- The context of the first reached thread with an id. -/
def firstContext (image : List UInt8) (threads : List MDRawThread) (id : ℕ) :
    Option MinidumpContext :=
  ((reachedThreads image threads).find? fun thread => MDRawThread.threadId thread = id).bind
    fun thread => contextAt image (MDRawThread.threadContext thread)

/-- The loop over the threads keeps the contexts it finds and adds the first context of
every other id. Induction on the threads. -/
theorem readContexts_contexts {threads : List MDRawThread} {s s' : InputStream} {ok : Bool}
    {contexts contexts' : ℕ → Option MinidumpContext}
    (h : readContexts threads contexts s = some (ok, contexts', s'))
    (hclear : s'.failbit = false) (id : ℕ) :
    contexts' id = (contexts id).or (firstContext s.image threads id) := by
  induction threads generalizing contexts s with
  | nil =>
    cases h
    simp [firstContext, reachedThreads]
  | cons thread rest ih =>
    have hs := (readContexts_later h).unfailed hclear
    have hfresh := MinidumpContext.read_eq_of_image hs (t := InputStream.ofImage s.image) rfl rfl
      (MDRawThread.threadContext thread)
    rcases readContexts_cons_cases h with ⟨hread, rfl⟩ | ⟨context, t, hread, hrest⟩
    · have hc : contextAt s.image (MDRawThread.threadContext thread) = none := by
        simp only [contextAt, ← hfresh, hread]
      simp [firstContext, reachedThreads, hc]
    · have hc : contextAt s.image (MDRawThread.threadContext thread) = some context := by
        simp only [contextAt, ← hfresh, hread]
      rw [ih hrest, (MinidumpContext.read_later hread).image_eq]
      by_cases hid : MDRawThread.threadId thread = id
      · simp [firstContext, reachedThreads, hc, hid, insertContext]
      · have hid' : ¬id = MDRawThread.threadId thread := fun h => hid h.symm
        simp [firstContext, reachedThreads, hc, hid, hid', insertContext]

/-- A context is inserted behind those that are there. -/
theorem insertContext_or (earlier contexts : ℕ → Option MinidumpContext) (key : ℕ)
    (context : MinidumpContext) :
    insertContext (fun id => (earlier id).or (contexts id)) key context =
      fun id => (earlier id).or (insertContext contexts key context id) := by
  funext id
  unfold insertContext
  split
  · exact Option.or_assoc
  · rfl

/-- A context is assigned in front of those that are there. -/
theorem assignContext_eq_or (contexts : ℕ → Option MinidumpContext) (key : ℕ)
    (context : MinidumpContext) :
    assignContext contexts key context =
      fun id => (assignContext (fun _ => none) key context id).or (contexts id) := by
  funext id
  unfold assignContext
  split <;> rfl

/-- Contexts that are there before the loop over the threads stay in front of those it
adds. -/
theorem readContexts_merge (threads : List MDRawThread) (s : InputStream)
    (earlier contexts : ℕ → Option MinidumpContext) :
    readContexts threads (fun id => (earlier id).or (contexts id)) s =
      (readContexts threads contexts s).map fun r =>
        (r.1, fun id => (earlier id).or (r.2.1 id), r.2.2) := by
  induction threads generalizing contexts s with
  | nil => rfl
  | cons thread rest ih =>
    unfold readContexts
    cases MinidumpContext.read (MDRawThread.threadContext thread) s with
    | none => rfl
    | some result =>
      obtain ⟨c, t⟩ := result
      cases c with
      | none => rfl
      | some context =>
        simp only [insertContext_or, ih]

/-- Take over what a parse of an entry of this type has read on its own. -/
def Minidump.absorb (m f : Minidump) : Option StreamType → Minidump
  | some .threadList =>
    { m with threads := f.threads, contexts := fun id => (m.contexts id).or (f.contexts id) }
  | some .moduleList => { m with modules := f.modules }
  | some .memoryList => { m with memories := f.memories }
  | some .exception =>
    { m with exception := f.exception, contexts := fun id => (f.contexts id).or (m.contexts id) }
  | some .systemInfo => { m with systemInfo := f.systemInfo }
  | none => m

/-- Nothing of this type has been read yet. -/
def Minidump.UnreadAt (m : Minidump) : StreamType → Prop
  | .threadList => m.threads = []
  | .moduleList => m.modules = []
  | .memoryList => m.memories = []
  | .exception => m.exception = .zero 168
  | .systemInfo => m.systemInfo = .zero 56

/-- The first parse of a type does what it would do on its own, whatever has been read
for the other types. -/
theorem parse_eq_absorb {m : Minidump} {directory : MDRawDirectory}
    (hs : m.stream.failbit = false)
    (hunread : ∀ type, directory.handledType = some type → m.UnreadAt type) :
    m.parse directory =
      ((Minidump.ofFile m.stream.image).parse directory).map fun r =>
        (r.1, { m.absorb r.2 directory.handledType with
          stream := if directory.handledType.isSome then r.2.stream else m.stream }) := by
  have hfresh : (InputStream.ofImage m.stream.image).failbit = false := rfl
  have himage : m.stream.image = (InputStream.ofImage m.stream.image).image := rfl
  have hlist (size itemSize : ℕ) :=
    @readStream_eq_of_image size itemSize 10000 _ _ hs hfresh himage directory
  have hsingle {size : ℕ} (stream : RawObject size) :=
    readStreamSingle_eq_of_image hs hfresh himage directory stream
  unfold Minidump.parse
  cases htype : directory.handledType with
  | none => rfl
  | some type =>
    have hempty := hunread type htype
    cases type with
    | threadList =>
      have hempty : m.threads = [] := hempty
      simp only [Minidump.readThreadListStream, hempty, Minidump.ofFile, hlist]
      generalize readStream directory ([] : List (RawObject 48)) 48 10000
        (InputStream.ofImage m.stream.image) = result
      obtain ⟨ok, threads, s⟩ := result
      cases ok with
      | false => simp [Minidump.absorb]
      | true =>
        have hmerge := readContexts_merge threads s m.contexts (fun _ => none)
        simp only [Option.or_none] at hmerge
        simp only [hmerge, Option.map_map]
        rfl
    | moduleList =>
      have hempty : m.modules = [] := hempty
      simp only [Minidump.readModuleListStream, hempty, Minidump.ofFile, hlist]
      rfl
    | memoryList =>
      have hempty : m.memories = [] := hempty
      simp only [Minidump.readMemoryListStream, hempty, Minidump.ofFile, hlist]
      rfl
    | exception =>
      have hzero : m.exception = .zero 168 := hempty
      simp only [Minidump.readExceptionStream, hzero, Minidump.ofFile, hsingle]
      generalize readStreamSingle directory (RawObject.zero 168)
        (InputStream.ofImage m.stream.image) = result
      obtain ⟨ok, exception, s⟩ := result
      cases ok with
      | false => simp [Minidump.absorb]
      | true =>
        simp only [Option.map_map]
        refine congrArg (fun f => Option.map f _) (funext fun r => ?_)
        obtain ⟨c, s'⟩ := r
        cases c with
        | none => simp [Minidump.absorb]
        | some context =>
          have hassign := assignContext_eq_or m.contexts
            (MDRawExceptionStream.threadId exception) context
          simp only [Function.comp_apply, hassign]
          rfl
    | systemInfo =>
      have hzero : m.systemInfo = .zero 56 := hempty
      simp only [Minidump.readSystemInfoStream, hzero, Minidump.ofFile, hsingle]
      rfl

theorem Minidump.absorb_detached (m f : Minidump) (type : Option StreamType) :
    (m.absorb f type).detached = m.detached.absorb f type := by
  rcases type with _ | type
  · rfl
  · cases type <;> rfl

theorem Minidump.detached_unreadAt {m : Minidump} {type : StreamType} :
    m.detached.UnreadAt type ↔ m.UnreadAt type := by
  cases type <;> exact Iff.rfl

/-- What is taken over for one type leaves the others unread. -/
theorem Minidump.absorb_unreadAt {m f : Minidump} {type : Option StreamType} {other : StreamType}
    (hne : type ≠ some other) : (m.absorb f type).UnreadAt other ↔ m.UnreadAt other := by
  rcases type with _ | type
  · exact Iff.rfl
  · cases type <;> cases other <;> first | exact Iff.rfl | exact absurd rfl hne

/-- What is taken over for two types does not depend on the order. Only the thread list
and the exception share a field: the one adds behind, the other in front. -/
theorem Minidump.absorb_comm (m f g : Minidump) {type other : Option StreamType}
    (hne : type = none ∨ type ≠ other) :
    (m.absorb f type).absorb g other = (m.absorb g other).absorb f type := by
  rcases type with _ | type
  · rfl
  · rcases other with _ | other
    · rfl
    · have hne : type ≠ other := by
        rintro rfl
        simp at hne
      cases type <;> cases other <;>
        first | rfl | exact absurd rfl hne | simp [Minidump.absorb, Option.or_assoc]

/-- What the parse of an entry reads on its own, if it does not crash and no read fails. -/
def parseAlone (image : List UInt8) (directory : MDRawDirectory) : Option Minidump :=
  ((Minidump.ofFile image).parse directory).bind fun r =>
    if r.2.stream.failbit then none else some r.2

/-- Take over what the entry gives. -/
def absorbEntry (image : List UInt8) (m : Minidump) (directory : MDRawDirectory) : Minidump :=
  (parseAlone image directory).elim m fun f => m.absorb f directory.handledType

theorem absorbEntry_unreadAt {image : List UInt8} {m : Minidump} {directory : MDRawDirectory}
    {other : StreamType} (hne : directory.handledType ≠ some other) :
    (absorbEntry image m directory).UnreadAt other ↔ m.UnreadAt other := by
  unfold absorbEntry
  cases parseAlone image directory with
  | none => exact Iff.rfl
  | some f => exact Minidump.absorb_unreadAt hne

/-- A parse without a failed read takes over what the entry gives. -/
theorem parseAlone_of_parse {m m' : Minidump} {directory : MDRawDirectory} {ok : Bool}
    (hs : m.stream.failbit = false)
    (hunread : ∀ type, directory.handledType = some type → m.UnreadAt type)
    (hparse : m.parse directory = some (ok, m')) (hclear : m'.stream.failbit = false) :
    (parseAlone m.stream.image directory).isSome ∧
      m'.detached = absorbEntry m.stream.image m.detached directory := by
  rw [parse_eq_absorb hs hunread] at hparse
  obtain ⟨⟨okf, f⟩, hf, hm⟩ := Option.map_eq_some_iff.mp hparse
  obtain ⟨-, rfl⟩ := Prod.mk.inj hm
  have hfclear : f.stream.failbit = false := by
    cases htype : directory.handledType with
    | none =>
      rw [Minidump.parse, htype] at hf
      cases hf
      rfl
    | some type => simpa [htype] using hclear
  have halone : parseAlone m.stream.image directory = some f := by
    simp [parseAlone, hf, hfclear]
  refine ⟨by rw [halone]; rfl, ?_⟩
  rw [absorbEntry, halone, Option.elim_some, ← Minidump.absorb_detached]
  rfl

/-- A parse does so whenever it would not fail on its own. -/
theorem parse_of_parseAlone {m : Minidump} {directory : MDRawDirectory}
    (hs : m.stream.failbit = false)
    (hunread : ∀ type, directory.handledType = some type → m.UnreadAt type)
    (halone : (parseAlone m.stream.image directory).isSome) :
    ∃ ok m', m.parse directory = some (ok, m') ∧ m'.stream.failbit = false := by
  obtain ⟨f, halone⟩ := Option.isSome_iff_exists.mp halone
  obtain ⟨⟨ok, g⟩, hparse, hif⟩ := Option.bind_eq_some_iff.mp halone
  have hclear : g.stream.failbit = false := by
    by_contra hfail
    rw [if_pos (by simpa using hfail)] at hif
    cases hif
  rw [parse_eq_absorb hs hunread, hparse]
  refine ⟨_, _, rfl, ?_⟩
  dsimp only
  split
  · exact hclear
  · exact hs

/-- Each handled stream type occurs at most once. -/
def AtMostOnce (directories : List MDRawDirectory) : Prop :=
  directories.Pairwise fun d e => d.handledType = none ∨ d.handledType ≠ e.handledType

theorem AtMostOnce.symm {d e : MDRawDirectory}
    (h : d.handledType = none ∨ d.handledType ≠ e.handledType) :
    e.handledType = none ∨ e.handledType ≠ d.handledType := by
  rcases h with hnone | hne
  · rw [hnone]
    exact eq_or_ne _ _
  · exact .inr hne.symm

/-- An entry before another has not its type. -/
theorem handledType_ne {d e : MDRawDirectory} {type : StreamType}
    (hpair : d.handledType = none ∨ d.handledType ≠ e.handledType)
    (htype : e.handledType = some type) : d.handledType ≠ some type := by
  rcases hpair with hnone | hne
  · rw [hnone]
    exact nofun
  · rwa [← htype]

/-- The run over a directory without a failed read: every entry can be parsed on its own,
and the state is what the entries give. Induction on the directory. -/
theorem readDirectories_iff {directories : List MDRawDirectory} {m n : Minidump}
    (hs : m.stream.failbit = false) (honce : AtMostOnce directories)
    (hunread : ∀ d ∈ directories, ∀ type, d.handledType = some type → m.UnreadAt type) :
    (∃ m', Minidump.readDirectories directories m = some m' ∧ m'.stream.failbit = false ∧
        m'.detached = n) ↔
      (∀ d ∈ directories, (parseAlone m.stream.image d).isSome) ∧
        directories.foldl (absorbEntry m.stream.image) m.detached = n := by
  induction directories generalizing m with
  | nil =>
    constructor
    · rintro ⟨m', hm, -, hn⟩
      cases hm
      exact ⟨fun d hd => absurd hd List.not_mem_nil, hn⟩
    · rintro ⟨-, hn⟩
      exact ⟨m, rfl, hs, hn⟩
  | cons d rest ih =>
    obtain ⟨hfirst, honce⟩ := List.pairwise_cons.mp honce
    have hd := hunread d List.mem_cons_self
    -- After the first entry its own state is as if it were read alone, and the rest is unread.
    have hrest {ok : Bool} {m₁ : Minidump} (hparse : m.parse d = some (ok, m₁))
        (hclear : m₁.stream.failbit = false) :
        (parseAlone m.stream.image d).isSome ∧
          ((∃ m', Minidump.readDirectories rest m₁ = some m' ∧ m'.stream.failbit = false ∧
              m'.detached = n) ↔
            (∀ e ∈ rest, (parseAlone m.stream.image e).isSome) ∧
              rest.foldl (absorbEntry m.stream.image)
                (absorbEntry m.stream.image m.detached d) = n) := by
      obtain ⟨halone, hm₁⟩ := parseAlone_of_parse hs hd hparse hclear
      refine ⟨halone, ?_⟩
      rw [← hm₁, ← (Minidump.parse_later hparse).image_eq]
      apply ih hclear honce
      intro e he type htype
      have hne := handledType_ne (hfirst e he) htype
      rw [← Minidump.detached_unreadAt, hm₁, absorbEntry_unreadAt hne, Minidump.detached_unreadAt]
      exact hunread e (List.mem_cons_of_mem d he) type htype
    rw [List.foldl_cons]
    constructor
    · rintro ⟨m', hrun, hclear, hn⟩
      unfold Minidump.readDirectories at hrun
      cases hparse : m.parse d with
      | none => rw [hparse] at hrun; cases hrun
      | some result =>
        obtain ⟨ok, m₁⟩ := result
        rw [hparse] at hrun
        have hclear₁ := (Minidump.readDirectories_later hrun).unfailed hclear
        obtain ⟨halone, hiff⟩ := hrest hparse hclear₁
        obtain ⟨hall, hn⟩ := hiff.mp ⟨m', hrun, hclear, hn⟩
        exact ⟨List.forall_mem_cons.mpr ⟨halone, hall⟩, hn⟩
    · rintro ⟨hall, hn⟩
      obtain ⟨halone, hall⟩ := List.forall_mem_cons.mp hall
      obtain ⟨ok, m₁, hparse, hclear₁⟩ := parse_of_parseAlone hs hd halone
      obtain ⟨m', hrun, hclear, hn⟩ := (hrest hparse hclear₁).2.mpr ⟨hall, hn⟩
      refine ⟨m', ?_, hclear, hn⟩
      unfold Minidump.readDirectories
      rw [hparse]
      exact hrun

/-- A thread list on its own gives the first context of every id. -/
theorem parseAlone_threadList {image : List UInt8} {directory : MDRawDirectory} {f : Minidump}
    (htype : directory.handledType = some .threadList)
    (halone : parseAlone image directory = some f) (id : ℕ) :
    f.contexts id = firstContext image f.threads id := by
  obtain ⟨⟨ok, g⟩, hparse, hif⟩ := Option.bind_eq_some_iff.mp halone
  obtain ⟨hclear, rfl⟩ : g.stream.failbit = false ∧ g = f := by simpa using hif
  simp only [Minidump.parse, htype, Minidump.readThreadListStream, Minidump.ofFile] at hparse
  cases hrun : readStream directory ([] : List (RawObject 48)) 48 10000 (.ofImage image) with
  | mk okList result =>
    obtain ⟨threads, s⟩ := result
    have himage := (readStream_later directory ([] : List (RawObject 48)) 48 10000
      (.ofImage image)).image_eq
    rw [hrun] at hparse himage
    cases okList with
    | false =>
      cases hparse
      rw [readStream_refused (by decide) hrun hclear]
      rfl
    | true =>
      obtain ⟨⟨okc, contexts, s'⟩, hcontexts, hm⟩ := Option.map_eq_some_iff.mp hparse
      cases hm
      have hspec := readContexts_contexts hcontexts hclear id
      rw [show s.image = image from himage] at hspec
      exact hspec

/-- An exception stream on its own gives the context of its thread, if the record is read
and its context is not rejected. -/
theorem parseAlone_exception {image : List UInt8} {directory : MDRawDirectory} {f : Minidump}
    (htype : directory.handledType = some .exception)
    (halone : parseAlone image directory = some f) (id : ℕ) :
    f.contexts id =
      if directory.location.dataSize = 168 ∧ id = MDRawExceptionStream.threadId f.exception then
        contextAt image (MDRawExceptionStream.threadContext f.exception)
      else none := by
  obtain ⟨⟨ok, g⟩, hparse, hif⟩ := Option.bind_eq_some_iff.mp halone
  obtain ⟨hclear, rfl⟩ : g.stream.failbit = false ∧ g = f := by simpa using hif
  simp only [Minidump.parse, htype, Minidump.readExceptionStream, Minidump.ofFile] at hparse
  cases hrun : readStreamSingle directory (RawObject.zero 168) (.ofImage image) with
  | mk okSingle result =>
    obtain ⟨exception, s⟩ := result
    have himage := (readStreamSingle_later directory (RawObject.zero 168)
      (.ofImage image)).image_eq
    rw [hrun] at hparse himage
    have himage : s.image = image := himage
    cases okSingle with
    | false =>
      cases hparse
      have hsize := (readStreamSingle_ok_iff hrun hclear).not.mp nofun
      rw [if_neg fun h => hsize h.1]
    | true =>
      obtain ⟨⟨c, s'⟩, hread, hm⟩ := Option.map_eq_some_iff.mp hparse
      have hs' : s'.failbit = false := by cases c <;> (cases hm; exact hclear)
      have hs := (MinidumpContext.read_later hread).unfailed hs'
      have hsize := (readStreamSingle_ok_iff hrun hs).mp rfl
      have hc : contextAt image (MDRawExceptionStream.threadContext exception) = c := by
        have hfresh := MinidumpContext.read_eq_of_image hs (t := .ofImage image) rfl himage
          (MDRawExceptionStream.threadContext exception)
        simp only [contextAt, ← hfresh, hread]
      cases c with
      | none =>
        cases hm
        simp [hc]
      | some context =>
        cases hm
        simp [hc, hsize, assignContext]

/-- The directory has an exception stream whose record is read. -/
def exceptionRead (directories : List MDRawDirectory) : Bool :=
  directories.any fun d => d.handledType = some .exception ∧ d.location.dataSize = 168

/-- The context of the exception stream, if its record and the context have been read. -/
def Minidump.exceptionContext (image : List UInt8) (read : Bool) (m : Minidump) :
    Option MinidumpContext :=
  if read then contextAt image (MDRawExceptionStream.threadContext m.exception) else none

/-- The contexts are those of the threads, with that of the exception stream in front. -/
def Minidump.ContextsFrom (image : List UInt8) (read : Bool) (m : Minidump) : Prop :=
  ∀ id, m.contexts id =
    (if id = MDRawExceptionStream.threadId m.exception then m.exceptionContext image read
      else none).or (firstContext image m.threads id)

/-- Taking over an entry keeps the contexts what they are said to be. The exception stream
is not read a second time. -/
theorem absorbEntry_contextsFrom {image : List UInt8} {read : Bool} {m : Minidump}
    {directory : MDRawDirectory} (halone : (parseAlone image directory).isSome)
    (hunread : ∀ type, directory.handledType = some type → m.UnreadAt type)
    (hread : directory.handledType = some .exception → read = false)
    (hm : m.ContextsFrom image read) :
    (absorbEntry image m directory).ContextsFrom image (read || exceptionRead [directory]) := by
  obtain ⟨f, hf⟩ := Option.isSome_iff_exists.mp halone
  have hkeep (hne : directory.handledType ≠ some .exception) :
      (read || exceptionRead [directory]) = read := by simp [exceptionRead, hne]
  rw [absorbEntry, hf, Option.elim_some]
  cases htype : directory.handledType with
  | none => rw [hkeep (by simp [htype])]; exact hm
  | some type =>
    cases type with
    | threadList =>
      have hempty : m.threads = [] := hunread .threadList htype
      have hfirst := parseAlone_threadList htype hf
      intro id
      have hid := hm id
      rw [hempty, show firstContext image [] id = none from rfl, Option.or_none] at hid
      simp only [exceptionRead, htype, List.any_cons, List.any_nil, Minidump.absorb, hfirst, hid]
      simp [Minidump.exceptionContext]
    | exception =>
      obtain rfl := hread htype
      have hgiven := parseAlone_exception htype hf
      intro id
      have hid := hm id
      simp only [Minidump.exceptionContext, Bool.false_eq_true, if_false, ite_self,
        Option.none_or] at hid
      simp only [exceptionRead, htype, List.any_cons, List.any_nil, Minidump.absorb, hgiven, hid]
      by_cases hsize : directory.location.dataSize = 168
      · simp [Minidump.exceptionContext, hsize]
      · simp [Minidump.exceptionContext, hsize]
    | moduleList => rw [hkeep (by simp [htype])]; exact hm
    | memoryList => rw [hkeep (by simp [htype])]; exact hm
    | systemInfo => rw [hkeep (by simp [htype])]; exact hm

/-- So they are after a whole directory. Induction on the entries still to be read. -/
theorem foldl_contextsFrom {image : List UInt8} {read : Bool} {m : Minidump}
    {directories : List MDRawDirectory} (honce : AtMostOnce directories)
    (halone : ∀ d ∈ directories, (parseAlone image d).isSome)
    (hunread : ∀ d ∈ directories, ∀ type, d.handledType = some type → m.UnreadAt type)
    (hread : ∀ d ∈ directories, d.handledType = some .exception → read = false)
    (hm : m.ContextsFrom image read) :
    (directories.foldl (absorbEntry image) m).ContextsFrom image
      (read || exceptionRead directories) := by
  induction directories generalizing m read with
  | nil => simpa [exceptionRead] using hm
  | cons d rest ih =>
    obtain ⟨hfirst, honce⟩ := List.pairwise_cons.mp honce
    obtain ⟨hd, halone⟩ := List.forall_mem_cons.mp halone
    obtain ⟨hunreadd, hunread⟩ := List.forall_mem_cons.mp hunread
    obtain ⟨hreadd, hread⟩ := List.forall_mem_cons.mp hread
    have hstep := absorbEntry_contextsFrom hd hunreadd hreadd hm
    have hunread' : ∀ e ∈ rest, ∀ type, e.handledType = some type →
        (absorbEntry image m d).UnreadAt type := by
      intro e he type htype
      rw [absorbEntry_unreadAt (handledType_ne (hfirst e he) htype)]
      exact hunread e he type htype
    have hread' : ∀ e ∈ rest, e.handledType = some .exception →
        (read || exceptionRead [d]) = false := by
      intro e he htype
      have hne := handledType_ne (hfirst e he) htype
      simp [hread e he htype, exceptionRead, hne]
    have hrest := ih honce halone hunread' hread' hstep
    have hor : (read || exceptionRead [d] || exceptionRead rest) =
        (read || exceptionRead (d :: rest)) := by
      simp [exceptionRead, Bool.or_assoc]
    rwa [hor] at hrest

/-- What the entries give does not depend on their order. -/
theorem foldl_absorbEntry_perm {image : List UInt8} {directories directories' : List MDRawDirectory}
    (honce : AtMostOnce directories) (hperm : directories.Perm directories') (m : Minidump) :
    directories.foldl (absorbEntry image) m = directories'.foldl (absorbEntry image) m := by
  apply hperm.foldl_eq'
  intro d hd e he n
  by_cases hsame : d = e
  · rw [hsame]
  · have hpair : d.handledType = none ∨ d.handledType ≠ e.handledType := by
      have : Std.Symm fun d e : MDRawDirectory =>
          d.handledType = none ∨ d.handledType ≠ e.handledType := ⟨fun _ _ => AtMostOnce.symm⟩
      exact honce.forall hd he hsame
    unfold absorbEntry
    cases parseAlone image d with
    | none => rfl
    | some f =>
      cases parseAlone image e with
      | none => rfl
      | some g => exact n.absorb_comm f g hpair

/-- A `Minidump` with an unfailed stream into which no stream has been read. -/
structure Minidump.Unread (m : Minidump) : Prop where
  unfailed : m.stream.failbit = false
  unreadAt : ∀ type, m.UnreadAt type
  contexts_eq : ∀ id, m.contexts id = none

/-- `Read` enters its loop over the directory with nothing read. -/
theorem unread_of_readDirectoryList {image : List UInt8} {m : Minidump}
    (hlist : (Minidump.ofFile image).readHeader.2.readDirectoryList = (true, m)) : m.Unread := by
  unfold Minidump.readDirectoryList at hlist
  have hseek := seekTo_ok_iff (Minidump.ofFile image).readHeader.2.stream
    ((Minidump.ofFile image).readHeader.2.header.word 12 4)
  generalize seekTo (Minidump.ofFile image).readHeader.2.stream
    ((Minidump.ofFile image).readHeader.2.header.word 12 4) = result at hlist hseek
  obtain ⟨ok, s⟩ := result
  cases ok with
  | false => cases hlist
  | true =>
    dsimp only at hlist
    split at hlist
    · cases hlist
    split at hlist
    case isTrue hcount =>
      obtain ⟨hok, rfl⟩ := Prod.mk.inj hlist
      exact ⟨readBytes_unfailed (by omega) hok, fun type => by cases type <;> rfl, fun _ => rfl⟩
    case isFalse =>
      cases hlist
      exact ⟨hseek.mp rfl, fun type => by cases type <;> rfl, fun _ => rfl⟩

/-- The order of the directory does not matter. When each handled type occurs at most once
and a run leaves the failure bit clear, so that no seek and no read has failed in it, then
a run over the entries in any other order does so too and reads the same. The contexts are
that of the exception stream under its thread, and the first context reached for every
other thread. -/
theorem readDirectories_perm {m₀ m : Minidump} {directories directories' : List MDRawDirectory}
    (hm₀ : m₀.Unread) (honce : AtMostOnce directories) (hperm : directories.Perm directories')
    (hrun : Minidump.readDirectories directories m₀ = some m)
    (hclear : m.stream.failbit = false) :
    (∃ m', Minidump.readDirectories directories' m₀ = some m' ∧ m'.stream.failbit = false ∧
      m'.threads = m.threads ∧ m'.modules = m.modules ∧ m'.memories = m.memories ∧
      m'.exception = m.exception ∧ m'.systemInfo = m.systemInfo ∧ m'.contexts = m.contexts) ∧
    (∀ c, m.exceptionContext m₀.stream.image (exceptionRead directories) = some c →
      m.contexts (MDRawExceptionStream.threadId m.exception) = some c) ∧
    (∀ id, id ≠ MDRawExceptionStream.threadId m.exception ∨
        m.exceptionContext m₀.stream.image (exceptionRead directories) = none →
      m.contexts id = firstContext m₀.stream.image m.threads id) := by
  obtain ⟨hs, hunread, hnone⟩ := hm₀
  obtain ⟨halone, hfold⟩ := (readDirectories_iff hs honce fun _ _ type _ => hunread type).mp
    ⟨m, hrun, hclear, rfl⟩
  have hcontexts : m.ContextsFrom m₀.stream.image (exceptionRead directories) := by
    have hempty : m₀.detached.ContextsFrom m₀.stream.image false := by
      intro id
      have hthreads : m₀.detached.threads = [] := hunread .threadList
      rw [hthreads, show m₀.detached.contexts id = none from hnone id]
      simp [Minidump.exceptionContext, firstContext, reachedThreads]
    have hall := foldl_contextsFrom honce halone
      (fun _ _ type _ => Minidump.detached_unreadAt.mpr (hunread type)) (fun _ _ _ => rfl) hempty
    rw [Bool.false_or, hfold] at hall
    exact fun id => hall id
  refine ⟨?_, ?_, ?_⟩
  · have honce' : AtMostOnce directories' := hperm.pairwise honce AtMostOnce.symm
    obtain ⟨m', hrun', hclear', hm'⟩ :=
      (readDirectories_iff hs honce' fun _ _ type _ => hunread type).mpr
        ⟨fun d hd => halone d (hperm.mem_iff.mpr hd),
          (foldl_absorbEntry_perm honce hperm m₀.detached).symm.trans hfold⟩
    refine ⟨m', hrun', hclear', ?_⟩
    rw [Minidump.detached_eq_iff.mp hm']
    exact ⟨rfl, rfl, rfl, rfl, rfl, rfl⟩
  · intro c hc
    rw [hcontexts, if_pos rfl, hc, Option.some_or]
  · rintro id (hother | hnocontext)
    · rw [hcontexts, if_neg hother, Option.none_or]
    · rw [hcontexts, hnocontext, ite_self, Option.none_or]

/-- The streams of a file: one thread, an exception in it, each with a context, a padded empty
module list and one memory range. -/
def crashedThreadFile : List UInt8 :=
  LittleEndian.encode 4 1 ++ LittleEndian.encode 4 7 ++ List.replicate 36 0 ++
    LittleEndian.encode 4 1232 ++ LittleEndian.encode 4 248 ++
    LittleEndian.encode 4 7 ++ List.replicate 156 0 ++
    LittleEndian.encode 4 796 ++ LittleEndian.encode 4 1480 ++
    List.replicate 8 0 ++ LittleEndian.encode 4 1 ++ LittleEndian.encode 8 0x1000 ++
    LittleEndian.encode 4 4 ++ LittleEndian.encode 4 0 ++
    recordFile .amd64 ++ recordFile .arm64Old

/-- The directory of the file. -/
def crashedThreadEntries : List MDRawDirectory :=
  [directoryEntry 3 52 0, directoryEntry 6 168 52, directoryEntry 4 8 220, directoryEntry 5 20 228]

/-- The file is read to its end. -/
theorem crashedThreadEntries_read : (Minidump.readDirectories crashedThreadEntries
    (.ofFile crashedThreadFile)).isSome = true := by
  decide +kernel

/-- The thread has the context of the exception in both orders. -/
theorem readDirectories_perm_crashedThread :
    ∃ m m', Minidump.readDirectories crashedThreadEntries (.ofFile crashedThreadFile) = some m ∧
      Minidump.readDirectories crashedThreadEntries.reverse (.ofFile crashedThreadFile) = some m' ∧
      m'.contexts = m.contexts ∧ m'.memories = m.memories ∧
      (m.contexts 7).map MinidumpContext.contextFlags = some 0x400000 := by
  have hrun := (Option.some_get crashedThreadEntries_read).symm
  obtain ⟨⟨m', hrun', -, -, -, hmemories, -, -, hcontexts⟩, -⟩ := @readDirectories_perm
    (.ofFile crashedThreadFile) _ crashedThreadEntries crashedThreadEntries.reverse
    ⟨rfl, fun type => by cases type <;> rfl, fun _ => rfl⟩
    (by unfold AtMostOnce; decide) (List.reverse_perm _).symm hrun
    (by decide +kernel)
  exact ⟨_, m', hrun, hrun', hcontexts, hmemories, by decide +kernel⟩

end DwarfExpr
