import JamSession.Chats.ChatList

/-! The list of `ChatsController` over a session of one user. A load appends the chats of its
answer to what the list holds already, and creating a chat stores a document without a word to
the list. Documents are only added, so of two loads that bring chats the later answer has all
chats of the earlier one, and the list repeats them; and a chat that is stored after an answer
is missing. What is right is one load that brings anything, answered after the last chat. -/

namespace JamSession.Chats.Loading

section

variable [UIKit]

inductive Task
  /-- A `getDocuments`, before and after its answer; `stores` is the number of documents that
  were stored when it was answered. -/
  | asked
  | answered (documents : List (String × Dict)) (stores : ℕ)
  /-- An `addDocument`, before and after its acknowledgement. -/
  | adding (data : Dict)
  | added

/-- The controller and the collection. Two parts are for statements alone: the number of
documents stored so far, and the loads that were handled, each with that number when it was
answered and with the chats it brought, under the ids of their documents. -/
structure State where
  collection : OrderedMap String Dict
  chats : List (List String)
  tasks : List Task
  stores : ℕ
  loads : List (ℕ × List (String × List String))

namespace State

def add (s : State) (t : Task) : State := { s with tasks := s.tasks ++ [t] }

def drop (s : State) (i : ℕ) : State := { s with tasks := s.tasks.eraseIdx i }

end State

/-- The chats of an answer, with the ids of their documents. -/
def chatsIn (documents : List (String × Dict)) : List (String × List String) :=
  documents.filterMap fun e => (chatUsers e.2).map fun users => (e.1, users)

/-- The answer of a query for the chats of the user. -/
def query (uuid : String) (collection : OrderedMap String Dict) : List (String × Dict) :=
  collection.select fun _ d => arrayContains uuid d

inductive Action
  | getNumberofChats
  | createNewChatWith (user : String)
  | addDocument (i : ℕ) (id : String)
  | advance (i : ℕ)

/-- The steps with the user `uuid` logged in. An `addDocument` is stored under an id that no
document has, and no step of the backend fails. -/
def step (uuid : String) (s : State) : Action → State
  | .getNumberofChats => s.add .asked
  | .createNewChatWith user => s.add (.adding (chatData [uuid, user]))
  | .addDocument i id => match s.tasks[i]?, s.collection.get? id with
    | some (.adding data), none => { s.drop i with
        collection := s.collection.set id data
        stores := s.stores + 1 }.add .added
    | _, _ => s
  | .advance i => match s.tasks[i]? with
    | some .asked => (s.drop i).add (.answered (query uuid s.collection) s.stores)
    | some (.answered documents stores) => { s.drop i with
        chats := Chats.getNumberofChats s.chats (some documents)
        loads := s.loads ++ [(stores, chatsIn documents)] }
    | some .added => s.drop i
    | _ => s

/-- `init`, over any collection, calls `getNumberofChats`. -/
def start (collection : OrderedMap String Dict) : State := ⟨collection, [], [.asked], 0, []⟩

/-- The decodable chats of the user, with their ids. -/
def stored (uuid : String) (s : State) : List (String × List String) :=
  chatsIn (query uuid s.collection)

/-- With no callback outstanding, each stored chat of the user has brought one entry, and the
list is made of these. -/
def Mirrors (uuid : String) (s : State) : Prop := s.tasks = [] →
  (s.loads.flatMap Prod.snd).Perm (stored uuid s) ∧
    s.chats.Perm ((stored uuid s).map Prod.snd)

/-- The loads that brought any chat. -/
def bringing (s : State) : List (ℕ × List (String × List String)) :=
  s.loads.filter fun l => l.2 ≠ []

/-- With no callback outstanding, no chat of the user is stored, or one load has brought chats,
and nothing was stored after it was answered. -/
def LoadedOnce (uuid : String) (s : State) : Prop := s.tasks = [] →
  stored uuid s = [] ∨ (bringing s).map Prod.fst = [s.stores]

/-! ### The stored chats -/

section Stored

variable {uuid : String}

theorem mem_stored {s : State} {id : String} {users : List String} :
    (id, users) ∈ stored uuid s ↔
      ∃ d, s.collection.get? id = some d ∧ arrayContains uuid d ∧ chatUsers d = some users := by
  simp only [stored, chatsIn, query, List.mem_filterMap, Prod.exists, OrderedMap.mem_select,
    Option.map_eq_some_iff, Prod.mk.injEq]
  constructor
  · rintro ⟨_, d, ⟨hd, ha⟩, _, hu, rfl, rfl⟩
    exact ⟨d, hd, ha, hu⟩
  · rintro ⟨d, hd, ha, hu⟩
    exact ⟨id, d, ⟨hd, ha⟩, users, hu, rfl, rfl⟩

theorem nodup_stored (s : State) : (stored uuid s).Nodup := by
  have hsorted : (stored uuid s).Pairwise fun d e => d.1 < e.1 := by
    refine List.Pairwise.filterMap _ ?_ (s.collection.select_sorted _)
    rintro d e hlt d' hd' e' he'
    obtain ⟨users, -, rfl⟩ := Option.map_eq_some_iff.mp hd'
    obtain ⟨users', -, rfl⟩ := Option.map_eq_some_iff.mp he'
    exact hlt
  exact hsorted.imp fun hlt heq => absurd (congrArg Prod.fst heq) (ne_of_lt hlt)

theorem map_chatsIn (documents : List (String × Dict)) :
    (chatsIn documents).map Prod.snd = documents.filterMap fun e => chatUsers e.2 := by
  rw [chatsIn, List.map_filterMap]
  refine congrArg (documents.filterMap ·) (funext fun e => ?_)
  cases chatUsers e.2 <;> rfl

/-- A new chat of the user is one chat more. -/
theorem stored_set {s s' : State} {id user : String} (hid : s.collection.get? id = none)
    (hs : s'.collection = s.collection.set id (chatData [uuid, user])) :
    stored uuid s ⊆ stored uuid s' ∧ (id, [uuid, user]) ∈ stored uuid s' ∧
      (id, [uuid, user]) ∉ stored uuid s := by
  refine ⟨?_, ?_, ?_⟩
  · rintro ⟨k, users⟩ hk
    obtain ⟨d, hd, hrest⟩ := mem_stored.mp hk
    have hne : k ≠ id := by
      rintro rfl
      rw [hid] at hd
      cases hd
    exact mem_stored.mpr ⟨d, by rw [hs, OrderedMap.get?_set_of_ne _ _ hne, hd], hrest⟩
  · refine mem_stored.mpr ⟨_, by rw [hs, OrderedMap.get?_set_self], ?_, chatUsers_chatData _⟩
    simp
  · intro hmem
    obtain ⟨d, hd, -⟩ := mem_stored.mp hmem
    rw [hid] at hd
    cases hd

end Stored

/-! ### Snapshots -/

/-- The chats of the user after each number of stores, as far as it goes: they only grow, and
every answer is one of them. -/
structure Snapshots (uuid : String) (snap : ℕ → List (String × List String)) (s : State) : Prop where
  now : snap s.stores = stored uuid s
  mono : ∀ j k, j ≤ k → k ≤ s.stores → snap j ⊆ snap k
  grows : ∀ k < s.stores, ∃ e ∈ snap s.stores, e ∉ snap k
  answered : ∀ documents k, .answered documents k ∈ s.tasks →
    k ≤ s.stores ∧ chatsIn documents = snap k
  adding : ∀ data, .adding data ∈ s.tasks → ∃ user, data = chatData [uuid, user]
  loads : ∀ l ∈ s.loads, l.1 ≤ s.stores ∧ l.2 = snap l.1
  chats : s.chats = (s.loads.flatMap Prod.snd).map Prod.snd

namespace Snapshots

variable {uuid : String} {snap : ℕ → List (String × List String)} {s : State}

theorem drop (h : Snapshots uuid snap s) (i : ℕ) : Snapshots uuid snap (s.drop i) :=
  ⟨h.now, h.mono, h.grows, fun documents k hk => h.answered documents k (List.mem_of_mem_eraseIdx hk),
    fun data hd => h.adding data (List.mem_of_mem_eraseIdx hd), h.loads, h.chats⟩

theorem add (h : Snapshots uuid snap s) {t : Task}
    (hanswered : ∀ documents k, t = .answered documents k →
      k ≤ s.stores ∧ chatsIn documents = snap k)
    (hadding : ∀ data, t = .adding data → ∃ user, data = chatData [uuid, user]) :
    Snapshots uuid snap (s.add t) := by
  refine ⟨h.now, h.mono, h.grows, fun documents k hk => ?_, fun data hd => ?_, h.loads, h.chats⟩
  · rcases List.mem_append.mp hk with hk | hk
    · exact h.answered documents k hk
    · exact hanswered documents k (List.mem_singleton.mp hk).symm
  · rcases List.mem_append.mp hd with hd | hd
    · exact h.adding data hd
    · exact hadding data (List.mem_singleton.mp hd).symm

/-- An answer is handled. -/
theorem load (h : Snapshots uuid snap s) {documents : List (String × Dict)} {k : ℕ}
    (hk : k ≤ s.stores ∧ chatsIn documents = snap k) : Snapshots uuid snap { s with
      chats := Chats.getNumberofChats s.chats (some documents)
      loads := s.loads ++ [(k, chatsIn documents)] } := by
  refine ⟨h.now, h.mono, h.grows, h.answered, h.adding, fun l hl => ?_, ?_⟩
  · rcases List.mem_append.mp hl with hl | hl
    · exact h.loads l hl
    · rw [List.mem_singleton.mp hl]
      exact hk
  · rw [List.flatMap_append, List.map_append, ← h.chats, List.flatMap_singleton, map_chatsIn]
    rfl

/-- A new chat is stored, and the snapshots go one further. -/
theorem store (h : Snapshots uuid snap s) {id : String} (user : String)
    (hid : s.collection.get? id = none) :
    ∃ snap', Snapshots uuid snap' { s with
      collection := s.collection.set id (chatData [uuid, user])
      stores := s.stores + 1 } := by
  let s' : State := { s with
    collection := s.collection.set id (chatData [uuid, user])
    stores := s.stores + 1 }
  have hs : s'.collection = s.collection.set id (chatData [uuid, user]) := rfl
  obtain ⟨hsub, hnew, hold⟩ := stored_set hid hs
  have hle : ∀ k ≤ s.stores, (if k ≤ s.stores then snap k else stored uuid s') = snap k :=
    fun k hk => if_pos hk
  have hnow : (if s.stores + 1 ≤ s.stores then snap (s.stores + 1) else stored uuid s') =
      stored uuid s' := if_neg (by omega)
  refine ⟨fun k => if k ≤ s.stores then snap k else stored uuid s', hnow, ?_, ?_, ?_, h.adding, ?_,
    h.chats⟩
  · intro j k hjk hk
    by_cases hk' : k ≤ s.stores
    · simp only [hle k hk', hle j (by omega)]
      exact h.mono j k hjk hk'
    · simp only [if_neg hk']
      split_ifs with hj
      · exact fun e he => hsub (h.now ▸ h.mono j s.stores hj (Nat.le_refl _) he)
      · exact fun e he => he
  · intro k hk
    have hk' : k ≤ s.stores := Nat.lt_succ_iff.mp hk
    refine ⟨(id, [uuid, user]), ?_, ?_⟩
    · simp only [hnow]
      exact hnew
    · simp only [hle k hk']
      exact fun he => hold (h.now ▸ h.mono k s.stores hk' (Nat.le_refl _) he)
  · intro documents k hk
    obtain ⟨hk', hdocs⟩ := h.answered documents k hk
    exact ⟨Nat.le_succ_of_le hk', by simp only [hle k hk', hdocs]⟩
  · intro l hl
    obtain ⟨hl', hdocs⟩ := h.loads l hl
    exact ⟨Nat.le_succ_of_le hl', by simp only [hle l.1 hl', hdocs]⟩

theorem step (h : Snapshots uuid snap s) (a : Action) :
    ∃ snap', Snapshots uuid snap' (Loading.step uuid s a) := by
  cases a with
  | getNumberofChats => exact ⟨snap, h.add nofun nofun⟩
  | createNewChatWith user =>
    refine ⟨snap, h.add nofun fun data hd => ⟨user, ?_⟩⟩
    cases hd
    rfl
  | addDocument i id =>
    simp only [Loading.step]
    split
    · rename_i data hi hid
      obtain ⟨user, rfl⟩ := h.adding data (List.mem_of_getElem? hi)
      obtain ⟨snap', h'⟩ := (h.drop i).store user hid
      exact ⟨snap', h'.add nofun nofun⟩
    · exact ⟨snap, h⟩
  | advance i =>
    simp only [Loading.step]
    split
    · refine ⟨snap, (h.drop i).add (fun documents k ht => ?_) nofun⟩
      cases ht
      exact ⟨Nat.le_refl _, h.now.symm⟩
    · rename_i documents k hi
      exact ⟨snap, (h.drop i).load (h.answered documents k (List.mem_of_getElem? hi))⟩
    · exact ⟨snap, h.drop i⟩
    · exact ⟨snap, h⟩

/-- A load is at most what is stored now. -/
theorem subset_stored (h : Snapshots uuid snap s) {l : ℕ × List (String × List String)}
    (hl : l ∈ s.loads) : l.2 ⊆ stored uuid s := by
  obtain ⟨hle, heq⟩ := h.loads l hl
  rw [heq, ← h.now]
  exact h.mono _ _ hle (Nat.le_refl _)

/-- Of two loads that brought chats, the later one has those of the earlier one. -/
theorem not_disjoint (h : Snapshots uuid snap s) {l l' : ℕ × List (String × List String)}
    (hl : l ∈ bringing s) (hl' : l' ∈ bringing s) : ¬ List.Disjoint l.2 l'.2 := by
  obtain ⟨hmem, hne⟩ := List.mem_filter.mp hl
  obtain ⟨hmem', hne'⟩ := List.mem_filter.mp hl'
  obtain ⟨e, he⟩ := List.exists_mem_of_ne_nil _ (of_decide_eq_true hne)
  obtain ⟨e', he'⟩ := List.exists_mem_of_ne_nil _ (of_decide_eq_true hne')
  obtain ⟨hle, heq⟩ := h.loads l hmem
  obtain ⟨hle', heq'⟩ := h.loads l' hmem'
  rcases Nat.le_total l.1 l'.1 with hk | hk
  · exact fun hd => hd he (by rw [heq']; exact h.mono _ _ hk hle' (heq ▸ he))
  · exact fun hd => hd (by rw [heq]; exact h.mono _ _ hk hle (heq' ▸ he')) he'

/-- The only load that brought chats brought all that are stored if and only if none was stored
after its answer. -/
theorem perm_stored_iff (h : Snapshots uuid snap s) {l : ℕ × List (String × List String)}
    (hl : l ∈ bringing s) : l.2.Perm (stored uuid s) ↔ l.1 = s.stores := by
  obtain ⟨hle, heq⟩ := h.loads l (List.mem_filter.mp hl).1
  constructor
  · intro hperm
    by_contra hne
    obtain ⟨e, he, hnot⟩ := h.grows l.1 (by omega)
    rw [h.now] at he
    exact hnot (heq ▸ hperm.mem_iff.mpr he)
  · intro hk
    rw [heq, hk, h.now]

end Snapshots

/-! ### When the list mirrors the collection -/

/-- The entries come from the loads that brought any. -/
theorem flatMap_bringing (s : State) :
    s.loads.flatMap Prod.snd = (bringing s).flatMap Prod.snd := by
  unfold bringing
  generalize s.loads = loads
  induction loads with
  | nil => rfl
  | cons l loads ih =>
    by_cases hl : l.2 = []
    · rw [List.filter_cons_of_neg (by simpa using hl), List.flatMap_cons, hl, List.nil_append, ih]
    · rw [List.filter_cons_of_pos (by simpa using hl), List.flatMap_cons, List.flatMap_cons, ih]

theorem Snapshots.perm_iff {uuid : String} {snap : ℕ → List (String × List String)} {s : State}
    (h : Snapshots uuid snap s) : (s.loads.flatMap Prod.snd).Perm (stored uuid s) ↔
      stored uuid s = [] ∨ (bringing s).map Prod.fst = [s.stores] := by
  have hmem : ∀ l ∈ bringing s, l ∈ s.loads := fun l hl => (List.mem_filter.mp hl).1
  have hnil : stored uuid s = [] → bringing s = [] := by
    intro hs
    refine List.filter_eq_nil_iff.mpr fun l hl => ?_
    have hsub := h.subset_stored hl
    rw [hs] at hsub
    simpa using List.eq_nil_of_subset_nil hsub
  rw [flatMap_bringing]
  match hb : bringing s with
  | [] =>
    simp only [List.flatMap_nil, List.map_nil, List.nil_perm, reduceCtorEq, or_false]
  | [l] =>
    have hl : l ∈ bringing s := hb ▸ List.mem_singleton_self l
    have hne : stored uuid s ≠ [] := fun hs => by
      rw [hnil hs] at hb
      cases hb
    rw [List.flatMap_singleton, h.perm_stored_iff hl]
    simp [hne]
  | l :: l' :: ls =>
    -- the two loads share a chat, and stored chats are distinct
    have hl : l ∈ bringing s := hb ▸ List.mem_cons_self
    have hl' : l' ∈ bringing s := hb ▸ List.mem_cons_of_mem _ List.mem_cons_self
    have hne : stored uuid s ≠ [] := fun hs => by
      rw [hnil hs] at hb
      cases hb
    refine iff_of_false (fun hperm => ?_) (by simp [hne])
    have hnodup := hperm.nodup_iff.mpr (nodup_stored s)
    rw [List.flatMap_cons, List.flatMap_cons] at hnodup
    have hdis := (List.nodup_append'.mp hnodup).2.2
    exact h.not_disjoint hl hl' fun e he he' => hdis he (List.mem_append_left _ he')

theorem Snapshots.mirrors_iff {uuid : String} {snap : ℕ → List (String × List String)} {s : State}
    (h : Snapshots uuid snap s) : Mirrors uuid s ↔ LoadedOnce uuid s := by
  refine imp_congr_right fun _ => ?_
  rw [← h.perm_iff]
  refine ⟨And.left, fun hperm => ⟨hperm, ?_⟩⟩
  rw [h.chats]
  exact hperm.map Prod.snd

theorem snapshots_start (uuid : String) (collection : OrderedMap String Dict) :
    Snapshots uuid (fun _ => stored uuid (start collection)) (start collection) := by
  refine ⟨rfl, fun _ _ _ _ _ he => he, fun k hk => absurd hk (Nat.not_lt_zero k), ?_, ?_, ?_, rfl⟩
  · simp [start]
  · simp [start]
  · simp [start]

/-- In every state of every run the list mirrors the stored chats exactly if one load brought
them all. -/
theorem mirrors_iff_run (uuid : String) (collection : OrderedMap String Dict) (as : List Action) :
    Mirrors uuid (Runs.run (step uuid) (start collection) as) ↔
      LoadedOnce uuid (Runs.run (step uuid) (start collection) as) := by
  obtain ⟨snap, h⟩ := Runs.invariant (I := fun s => ∃ snap, Snapshots uuid snap s)
    (fun s a h => h.elim fun snap h => h.step a) ⟨_, snapshots_start uuid collection⟩ as
  exact h.mirrors_iff

end

/-! ### A chat is created, and the list is loaded again -/

open PlainKit

/-- Ann's list is loaded from an empty collection; then she creates a chat with Bob. -/
def createsChat : List Action :=
  [.advance 0, .advance 0, .createNewChatWith "b", .addDocument 0 "k", .advance 0]

/-- The new chat is missing, and a second load over a chat that is in the list repeats it. -/
theorem createsChat_missing :
    ¬ Mirrors "a" (Runs.run (step "a") (start ∅) createsChat) ∧
    ¬ Mirrors "a" (Runs.run (step "a") (start ((∅ : OrderedMap String Dict).set "k"
      (chatData ["a", "b"]))) [.advance 0, .advance 0, .getNumberofChats, .advance 0, .advance 0]) := by
  refine ⟨fun h => ?_, fun h => ?_⟩
  · exact absurd (h (by rfl)).2.length_eq (by decide +kernel)
  · exact absurd (h (by rfl)).2.length_eq (by decide +kernel)

end JamSession.Chats.Loading
