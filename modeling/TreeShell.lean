import TreeShell.Main
import TreeShell.Proofs.CommandLine.Plain
import TreeShell.Proofs.CommandLine.Records
import TreeShell.Proofs.Markup.Coloring
import TreeShell.Proofs.Markup.Fragments
import TreeShell.Proofs.Markup.Remnants
import TreeShell.Proofs.Path.Normal
import TreeShell.Proofs.Path.Walk
import TreeShell.Proofs.Session.Listing
import TreeShell.Proofs.Session.Logs
import TreeShell.Proofs.Session.Navigation
import TreeShell.Proofs.Session.Reading
import TreeShell.Proofs.Settings.History
import TreeShell.Proofs.Shell.Atomicity
import TreeShell.Proofs.Shell.Registration
import TreeShell.Proofs.Shell.Targets
import TreeShell.Proofs.Suggest.Ranking
import TreeShell.Proofs.Suggest.Records
import TreeShell.Proofs.Suggest.Release
import TreeShell.Proofs.Suggest.Replies
import TreeShell.Proofs.Tree.Building
import TreeShell.Proofs.Tree.Frame
import TreeShell.Proofs.Tree.Naming
import TreeShell.Proofs.Tree.WellFormed
