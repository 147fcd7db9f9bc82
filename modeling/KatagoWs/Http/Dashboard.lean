import KatagoWs.Cluster.Message
import KatagoWs.Cluster.Registry
import KatagoWs.Lib.Markup
import KatagoWs.Store.Queries

/-!
# The dashboard

The page at `/` lists the connected workers under the names they announce, which nobody checks,
and the jobs that run or wait.

* `renderIndex`        the page, piece by piece as the source writes it;
* `htmlEscape_shows`   an escaped name is shown as it is;
* `workerRow_tokens`   so is the name in a worker's row, between tags that are always the same;
* `dashboard_inert`    the tags of the page do not depend on the names of the workers.
-/

namespace KatagoWs
open Lib Lib.Markup

def PKG_VERSION : String := "0.1.0"

def QUEUE_PREVIEW : Int := 20

def htmlEscapeChar (ch : Char) : List Char :=
  if ch = '&' then "&amp;".toList
  else if ch = '<' then "&lt;".toList
  else if ch = '>' then "&gt;".toList
  else if ch = QUOTE then "&quot;".toList
  else if ch = APOSTROPHE then "&#39;".toList
  else [ch]

/-- Escape text for safe interpolation into the dashboard's HTML. -/
def htmlEscape (text : String) : String := String.ofList (text.toList.flatMap htmlEscapeChar)

/-- Compact "time since" label for a timestamp. -/
def ago (now since : Timestamp) : String :=
  let secs := ((now - since).tdiv 1000000).toNat
  if secs < 60 then s!"{secs}s"
  else if secs < 3600 then s!"{secs / 60}m {secs % 60}s"
  else if secs < 86400 then s!"{secs / 3600}h {secs % 3600 / 60}m"
  else s!"{secs / 86400}d {secs % 86400 / 3600}h"

def INDEX_HEAD : List String :=
  ["<!doctype html><html lang=\"en\"><head><meta charset=\"utf-8\">",
    "<meta name=\"viewport\" content=\"width=device-width,initial-scale=1\">",
    "<meta http-equiv=\"refresh\" content=\"5\">",
    "<title>katago-ws</title><style>",
    ":root\x7bcolor-scheme:light dark\x7d",
    "body\x7bfont:15px/1.6 system-ui,sans-serif;max-width:52rem;margin:3rem auto;",
    "padding:0 1.25rem\x7d",
    "h1\x7bmargin:0 0 .25rem;font-size:1.6rem\x7dsmall\x7bfont-weight:400;color:#888\x7d",
    ".sub\x7bcolor:#888;margin:0 0 1.5rem\x7d",
    "h2\x7bfont-size:1.05rem;margin:1.8rem 0 .5rem;",
    "border-bottom:1px solid rgba(127,127,127,.25);padding-bottom:.3rem\x7d",
    ".count\x7bfont-weight:400;color:#888;font-size:.85rem\x7d",
    "table\x7bwidth:100%;border-collapse:collapse;font-size:.86rem\x7d",
    "th\x7btext-align:left;color:#888;font-weight:600;padding:.3rem .6rem .3rem 0\x7d",
    "td\x7bpadding:.28rem .6rem .28rem 0;border-top:1px solid rgba(127,127,127,.14)\x7d",
    ".mono\x7bfont-family:ui-monospace,SFMono-Regular,Menlo,monospace\x7d",
    ".muted\x7bcolor:#888\x7d",
    ".dot\x7bdisplay:inline-block;width:.5rem;height:.5rem;border-radius:50%;",
    "margin-right:.45rem;vertical-align:middle\x7d",
    ".run\x7bbackground:#0a7\x7d.q\x7bbackground:#d49a3a\x7d",
    ".links\x7bmargin:2rem 0 1rem;font-size:.9rem\x7d",
    ".links a\x7bmargin-right:.9rem;text-decoration:none\x7d",
    "pre\x7bbackground:rgba(127,127,127,.12);padding:.8rem 1rem;border-radius:.5rem;",
    "overflow-x:auto;font-size:.85rem\x7d",
    "</style></head><body>"]

def INDEX_FOOT : List String :=
  ["<section class=\"links\">",
    "<a href=\"/docs\">/docs</a><a href=\"/openapi.json\">/openapi.json</a>",
    "<a href=\"/analyses\">/analyses</a><a href=\"/analyses/stream\">/analyses/stream</a>",
    "<a href=\"/healthz\">/healthz</a></section>",
    "<p class=\"muted\">Submit a game (raw SGF in the request body):</p>",
    "<pre>curl -X POST --data-binary @game.sgf https://&lt;host&gt;/analyse</pre>",
    "</body></html>"]

/-- pieces pushed one after the other -/
def pushAll (pieces : List String) : String := String.ofList (pieces.flatMap String.toList)

def TITLE : List String :=
  ["<h1>katago-ws <small>v", PKG_VERSION, "</small></h1>",
    "<p class=\"sub\">KataGo-backed SGF analysis service.</p>"]

def workerRow (now : Timestamp) (worker : WorkerInfo) : List String :=
  ["<tr><td class=\"mono\">", htmlEscape worker.name, "</td><td class=\"mono muted\">#",
    toString worker.id, "</td><td>", toString worker.slots, "</td><td class=\"muted\">",
    ago now worker.connectedAt, "</td></tr>"]

def WORKERS_TABLE : String :=
  "<table><tr><th>Worker</th><th>Session</th><th>Slots</th><th>Uptime</th></tr>"

/-- the clock is read for every row that is written: the readings, row by row -/
abbrev Readings := Nat → Timestamp

/-- the readings after those of `n` rows -/
def Readings.later (now : Readings) (n : Nat) : Readings := fun k => now (n + k)

def workerRows (now : Readings) (list : List WorkerInfo) : List String :=
  list.zipIdx.flatMap fun w => workerRow (now w.2) w.1

def workersSection (now : Readings) : Option (List WorkerInfo) → List String
  | none =>
    ["<h2>Workers</h2><p class=\"muted\">Standalone mode — analyses run ",
      "in-process (no remote workers).</p>"]
  | some list =>
    ["<h2>Workers <span class=\"count\">", toString list.length, "</span></h2>"] ++
      if list.isEmpty then ["<p class=\"muted\">No workers connected.</p>"]
      else [WORKERS_TABLE] ++ workerRows now list ++ ["</table>"]

section
variable (U : UuidText)

def runningRow (now : Timestamp) (job : JobSummary) : List String :=
  ["<tr><td class=\"mono\"><span class=\"dot run\"></span>", U.format job.id,
    "</td><td class=\"muted\">", ago now job.updatedAt, "</td></tr>"]

def runningSection (now : Readings) (running : List JobSummary) : List String :=
  ["<h2>Running <span class=\"count\">", toString running.length, "</span></h2>"] ++
    if running.isEmpty then ["<p class=\"muted\">Nothing running.</p>"]
    else ["<table><tr><th>Job</th><th>Running for</th></tr>"] ++
      running.zipIdx.flatMap (fun job => runningRow U (now job.2) job.1) ++ ["</table>"]

def queuedRow (now : Timestamp) (job : JobSummary × Nat) : List String :=
  ["<tr><td class=\"muted\">", toString (job.2 + 1),
    "</td><td class=\"mono\"><span class=\"dot q\"></span>", U.format job.1.id,
    "</td><td class=\"muted\">", ago now job.1.createdAt, "</td></tr>"]

def queueSection (now : Readings) (queuedTotal : Int) (queued : List JobSummary) :
    List String :=
  (if queuedTotal > QUEUE_PREVIEW then
    ["<h2>Queue <span class=\"count\">top ", toString queued.length, " of ", toString queuedTotal,
      "</span></h2>"]
  else ["<h2>Queue <span class=\"count\">", toString queuedTotal, "</span></h2>"]) ++
    if queued.isEmpty then ["<p class=\"muted\">Queue is empty.</p>"]
    else ["<table><tr><th>#</th><th>Job</th><th>Waiting</th></tr>"] ++
      queued.zipIdx.flatMap (fun job => queuedRow U (now job.2) job) ++ ["</table>"]

/-- Render the dashboard from the gathered worker and job state. -/
def renderIndex (now : Readings) (workers : Option (List WorkerInfo)) (running : List JobSummary)
    (queuedTotal : Int) (queued : List JobSummary) : String :=
  let rows := (workers.getD []).length
  pushAll (INDEX_HEAD ++ TITLE ++ workersSection now workers ++
    runningSection U (now.later rows) running ++
    queueSection U (now.later (rows + running.length)) queuedTotal queued ++ INDEX_FOOT)

end

/-! ## what is shown -/

theorem htmlEscapeChar_shows (ch : Char) : ReadsAs (htmlEscapeChar ch) [ch] := by
  unfold htmlEscapeChar
  by_cases hamp : ch = '&'
  · rw [if_pos hamp, hamp]
    decide +kernel
  rw [if_neg hamp]
  by_cases hlt : ch = '<'
  · rw [if_pos hlt, hlt]
    decide +kernel
  rw [if_neg hlt]
  by_cases hgt : ch = '>'
  · rw [if_pos hgt, hgt]
    decide +kernel
  rw [if_neg hgt]
  by_cases hquote : ch = QUOTE
  · rw [if_pos hquote, hquote]
    decide +kernel
  rw [if_neg hquote]
  by_cases hap : ch = APOSTROPHE
  · rw [if_pos hap, hap]
    decide +kernel
  rw [if_neg hap]
  exact read_chr hlt hamp

/-- **An escaped text** is shown as it is. -/
theorem htmlEscape_shows (text : String) : ReadsAs (htmlEscape text).toList text.toList := by
  have h := ReadsAs.flatMap (g := fun c => [c]) htmlEscapeChar_shows text.toList
  have hself : (text.toList.flatMap fun c => [c]) = text.toList := List.flatMap_singleton' _
  rw [hself] at h
  unfold htmlEscape
  rw [String.toList_ofList]
  exact h

example : htmlEscape "<script>alert(1)</script>" = "&lt;script&gt;alert(1)&lt;/script&gt;" := by
  decide +kernel

theorem toString_shows (n : Nat) : ReadsAs (toString n).toList (toString n).toList := by
  refine read_plain fun c hc => ?_
  rw [Nat.toString_eq_repr, Nat.toList_repr] at hc
  have hd : c.isDigit = true := Nat.isDigit_of_mem_toDigits (by decide) (by decide) hc
  constructor
  · rintro rfl
    exact absurd hd (by decide)
  · rintro rfl
    exact absurd hd (by decide)

theorem ago_shows (now since : Timestamp) :
    ReadsAs (ago now since).toList (ago now since).toList := by
  have hunit : ∀ unit ∈ ["s", "m ", "h ", "m", "d ", "h"], ReadsAs unit.toList unit.toList := by
    decide +kernel
  have hone : ∀ (n : Nat) (unit : String), unit ∈ ["s", "m ", "h ", "m", "d ", "h"] →
      ReadsAs (toString n ++ unit).toList (toString n ++ unit).toList := by
    intro n unit hu
    rw [String.toList_append]
    exact (toString_shows n).append (hunit unit hu)
  have htwo : ∀ (m n : Nat) (u v : String), u ∈ ["s", "m ", "h ", "m", "d ", "h"] →
      v ∈ ["s", "m ", "h ", "m", "d ", "h"] →
      ReadsAs (toString m ++ u ++ toString n ++ v).toList
        (toString m ++ u ++ toString n ++ v).toList := by
    intro m n u v hu hv
    rw [String.append_assoc, String.toList_append]
    exact (hone m u hu).append (hone n v hv)
  unfold ago
  dsimp only
  split
  · exact hone _ "s" (by decide)
  · split
    · exact htwo _ _ "m " "s" (by decide) (by decide)
    · split
      · exact htwo _ _ "h " "m" (by decide) (by decide)
      · exact htwo _ _ "d " "h" (by decide) (by decide)

/-! ## the page -/

theorem pushAll_toList (pieces : List String) :
    (pushAll pieces).toList = pieces.flatMap String.toList := String.toList_ofList

/-- every piece ends between tags -/
def ClosedAll (pieces : List String) : Prop := ∀ p ∈ pieces, Closed p.toList

def pieceTokens (pieces : List String) : List Token :=
  pieces.flatMap fun p => tokens p.toList

theorem tokens_pieces {pieces : List String} (h : ClosedAll pieces) (rest : List Char) :
    tokens (pieces.flatMap String.toList ++ rest) = pieceTokens pieces ++ tokens rest := by
  induction pieces with
  | nil => rfl
  | cons p pieces ih =>
    obtain ⟨hp, hrest⟩ := List.forall_mem_cons.mp h
    unfold pieceTokens
    rw [List.flatMap_cons, List.flatMap_cons, List.append_assoc, tokens_append hp, ih hrest,
      List.append_assoc]
    rfl

section
variable (now : Readings)

def workerTokens (now : Timestamp) (worker : WorkerInfo) : List Token :=
  tokens "<tr><td class=\"mono\">".toList ++ (shown worker.name.toList ++
    pieceTokens ["</td><td class=\"mono muted\">#", toString worker.id, "</td><td>",
      toString worker.slots, "</td><td class=\"muted\">", ago now worker.connectedAt,
      "</td></tr>"])

theorem workerRow_closed (now : Timestamp) (worker : WorkerInfo) :
    ClosedAll (workerRow now worker) := by
  unfold ClosedAll workerRow
  simp only [List.forall_mem_cons]
  refine ⟨?_, (htmlEscape_shows _).closed, ?_, (toString_shows _).closed, ?_,
    (toString_shows _).closed, ?_, (ago_shows _ _).closed, ?_, List.forall_mem_nil _⟩ <;>
  decide +kernel

/-- **A worker's row** shows the announced name as it is. -/
theorem workerRow_tokens (now : Timestamp) (worker : WorkerInfo) :
    pieceTokens (workerRow now worker) = workerTokens now worker := by
  unfold pieceTokens workerRow workerTokens
  rw [List.flatMap_cons, List.flatMap_cons, (htmlEscape_shows worker.name).tokens]
  rfl

def beforeWorkers (n : Nat) : List String :=
  INDEX_HEAD ++ TITLE ++ ["<h2>Workers <span class=\"count\">", toString n, "</span></h2>"] ++
    if n = 0 then ["<p class=\"muted\">No workers connected.</p>"] else [WORKERS_TABLE]

theorem beforeWorkers_closed (n : Nat) : ClosedAll (beforeWorkers n) := by
  have hhead : ClosedAll INDEX_HEAD := by
    unfold ClosedAll
    decide +kernel
  have htitle : ClosedAll TITLE := by
    unfold ClosedAll
    decide +kernel
  intro p hp
  unfold beforeWorkers at hp
  simp only [List.mem_append] at hp
  rcases hp with ((hp | hp) | hp) | hp
  · exact hhead p hp
  · exact htitle p hp
  · simp only [List.mem_cons, List.not_mem_nil, or_false] at hp
    rcases hp with rfl | rfl | rfl
    · decide +kernel
    · exact (toString_shows n).closed
    · decide +kernel
  · split at hp
    · rw [List.mem_singleton] at hp
      subst hp
      decide +kernel
    · rw [List.mem_singleton] at hp
      subst hp
      decide +kernel

variable (U : UuidText)

def afterWorkers (n : Nat) (running : List JobSummary) (queuedTotal : Int)
    (queued : List JobSummary) : List String :=
  (if n = 0 then [] else ["</table>"]) ++ runningSection U (now.later n) running ++
    queueSection U (now.later (n + running.length)) queuedTotal queued ++ INDEX_FOOT

theorem renderIndex_toList (list : List WorkerInfo) (running : List JobSummary)
    (queuedTotal : Int) (queued : List JobSummary) :
    (renderIndex U now (some list) running queuedTotal queued).toList
      = (beforeWorkers list.length ++ workerRows now list).flatMap String.toList ++
        (afterWorkers now U list.length running queuedTotal queued).flatMap String.toList := by
  unfold renderIndex
  dsimp only [Option.getD]
  rw [pushAll_toList, ← List.flatMap_append]
  refine congrArg (List.flatMap String.toList) ?_
  unfold beforeWorkers afterWorkers workersSection workerRows
  cases list with
  | nil => simp only [List.isEmpty_nil, List.length_nil, if_true, List.zipIdx_nil,
      List.flatMap_nil, List.append_assoc, List.nil_append, List.append_nil]
  | cons w list =>
    have hne : (w :: list).length ≠ 0 := by
      rw [List.length_cons]
      omega
    simp only [List.isEmpty_cons, Bool.false_eq_true, if_false, if_neg hne, List.append_assoc]

def workersTokens (list : List WorkerInfo) : List Token :=
  list.zipIdx.flatMap fun w => workerTokens (now w.2) w.1

theorem renderIndex_tokens (list : List WorkerInfo) (running : List JobSummary)
    (queuedTotal : Int) (queued : List JobSummary) :
    tokens (renderIndex U now (some list) running queuedTotal queued).toList
      = pieceTokens (beforeWorkers list.length) ++ (workersTokens now list ++
        tokens ((afterWorkers now U list.length running queuedTotal queued).flatMap
          String.toList)) := by
  have hclosed : ClosedAll (beforeWorkers list.length ++ workerRows now list) := by
    intro p hp
    rcases List.mem_append.mp hp with hp | hp
    · exact beforeWorkers_closed _ p hp
    · obtain ⟨w, -, hw⟩ := List.mem_flatMap.mp hp
      exact workerRow_closed (now w.2) w.1 p hw
  have hrows : pieceTokens (workerRows now list) = workersTokens now list := by
    unfold pieceTokens workerRows workersTokens
    rw [List.flatMap_assoc]
    exact List.flatMap_congr fun w _ => workerRow_tokens (now w.2) w.1
  have hsplit : ∀ a b : List String, pieceTokens (a ++ b) = pieceTokens a ++ pieceTokens b :=
    fun a b => List.flatMap_append
  rw [renderIndex_toList, tokens_pieces hclosed, hsplit, hrows, List.append_assoc]

theorem workerTokens_tags (now : Timestamp) (worker : WorkerInfo) (name : String) :
    (workerTokens now { worker with name }).filter Token.isTag
      = (workerTokens now worker).filter Token.isTag := by
  unfold workerTokens
  simp only [List.filter_append, shown_tags]

/-- **Names are inert.**  Whatever names the workers announce: the page is read as what comes
before the rows, the rows, each with exactly the announced name in its first cell, and what comes
after them; and its tags are those it has with any other names. -/
theorem dashboard_inert (list : List WorkerInfo) (running : List JobSummary) (queuedTotal : Int)
    (queued : List JobSummary) :
    tokens (renderIndex U now (some list) running queuedTotal queued).toList
      = pieceTokens (beforeWorkers list.length) ++ (workersTokens now list ++
        tokens ((afterWorkers now U list.length running queuedTotal queued).flatMap
          String.toList)) ∧
    ∀ rename : WorkerInfo → String,
      tags (renderIndex U now (some (list.map fun w => { w with name := rename w })) running
          queuedTotal queued).toList
        = tags (renderIndex U now (some list) running queuedTotal queued).toList := by
  refine ⟨renderIndex_tokens now U list running queuedTotal queued, fun rename => ?_⟩
  have hrows : (workersTokens now (list.map fun w => { w with name := rename w })).filter
      Token.isTag = (workersTokens now list).filter Token.isTag := by
    unfold workersTokens
    rw [List.zipIdx_map]
    induction list.zipIdx with
    | nil => rfl
    | cons w l ih =>
      rw [List.map_cons, List.flatMap_cons, List.flatMap_cons, List.filter_append,
        List.filter_append, ih]
      exact congrArg (· ++ _) (workerTokens_tags (now w.2) w.1 (rename w.1))
  unfold tags
  rw [renderIndex_tokens, renderIndex_tokens, List.length_map, List.filter_append,
    List.filter_append, List.filter_append, List.filter_append, hrows]

end

end KatagoWs
