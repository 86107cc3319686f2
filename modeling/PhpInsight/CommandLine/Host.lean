import PhpInsight.CommandLine.Path

namespace PhpInsight.CommandLine

/-- What lies at a path and below it, as far as directories go. -/
inductive Listing
  /-- Whatever is no directory, nothing included. -/
  | leaf
  | unlistable
  | directory (entries : List (String × Listing))

/-- Answers to questions about paths, which may cost effects of `m`. -/
structure Host (m : Type → Type) where
  read? : String → m (Option String)
  isFile : String → m Bool
  listing : String → m Listing
  /-- The one path from the root that leads to the same place. -/
  canonical? : String → m (Option String)
  /-- Opens a file to append to, which need not exist before, and says whether that worked. -/
  openLog : String → m Bool
  input? : m (Option String)

end PhpInsight.CommandLine
