import AgentDocs.Classes.Index
import AgentDocs.Classes.Visibility
import AgentDocs.Command.Builtin
import AgentDocs.Command.DocumentStack
import AgentDocs.Command.Error
import AgentDocs.Command.Registry
import AgentDocs.Command.Scope
import AgentDocs.Command.Script
import AgentDocs.CommandLine.Causes
import AgentDocs.CommandLine.Execute
import AgentDocs.CommandLine.Options
import AgentDocs.Decimal.Double
import AgentDocs.Decimal.Shortest
import AgentDocs.Generate.Artifacts
import AgentDocs.Generate.Error
import AgentDocs.Generate.Manifest
import AgentDocs.Generate.Run
import AgentDocs.Json.Members
import AgentDocs.Json.Reader
import AgentDocs.Json.Value
import AgentDocs.Json.Writer
import AgentDocs.Main
import AgentDocs.Markup.Frontmatter
import AgentDocs.Markup.Header
import AgentDocs.Markup.HeaderBlock
import AgentDocs.Markup.Placeholder
import AgentDocs.Markup.Span
import AgentDocs.Path.Basic
import AgentDocs.Path.Map
import AgentDocs.Path.Normal
import AgentDocs.Project.Basic
import AgentDocs.Project.Config
import AgentDocs.Proofs.Command.Contract
import AgentDocs.Proofs.Command.Links
import AgentDocs.Proofs.Command.Orderly
import AgentDocs.Proofs.Effect
import AgentDocs.Proofs.Generate.Again
import AgentDocs.Proofs.Generate.Claims
import AgentDocs.Proofs.Generate.Commit
import AgentDocs.Proofs.Generate.Confined
import AgentDocs.Proofs.Generate.Gather
import AgentDocs.Proofs.Generate.Imports
import AgentDocs.Proofs.Generate.Insertions
import AgentDocs.Proofs.Generate.Listing
import AgentDocs.Proofs.Generate.ManifestText
import AgentDocs.Proofs.Generate.Order
import AgentDocs.Proofs.Generate.Outcome
import AgentDocs.Proofs.Generate.Reconcile
import AgentDocs.Proofs.Generate.References
import AgentDocs.Proofs.Generate.Rewriting
import AgentDocs.Proofs.Generate.Stages
import AgentDocs.Proofs.Generate.Targets
import AgentDocs.Proofs.Generate.Twins
import AgentDocs.Proofs.Generate.Writing
import AgentDocs.Proofs.Json.Strings
import AgentDocs.Proofs.Loop
import AgentDocs.Proofs.Markup.Scan
import AgentDocs.Proofs.Markup.Splice
import AgentDocs.Proofs.Markup.Written
import AgentDocs.Proofs.Path.Absolute
import AgentDocs.Proofs.Path.Inside
import AgentDocs.Proofs.Path.Map
import AgentDocs.Proofs.Path.Normal
import AgentDocs.Proofs.Path.Order
import AgentDocs.Proofs.Path.Parts
import AgentDocs.Proofs.Path.Relative
import AgentDocs.Proofs.Render.Alike
import AgentDocs.Proofs.Render.Along
import AgentDocs.Proofs.Render.Calls
import AgentDocs.Proofs.Render.Chain
import AgentDocs.Proofs.Render.Dispatches
import AgentDocs.Proofs.Render.DocsList
import AgentDocs.Proofs.Render.FreeTarget
import AgentDocs.Proofs.Render.Imports
import AgentDocs.Proofs.Render.Inclusion
import AgentDocs.Proofs.Render.Ledger
import AgentDocs.Proofs.Render.Links
import AgentDocs.Proofs.Render.Mentions
import AgentDocs.Proofs.Render.Placings
import AgentDocs.Proofs.Render.Reuse
import AgentDocs.Proofs.Render.Steady
import AgentDocs.Proofs.Render.Termination
import AgentDocs.Proofs.Render.Trace
import AgentDocs.Proofs.Render.Twins
import AgentDocs.Proofs.Store.Confined
import AgentDocs.Proofs.Store.Content
import AgentDocs.Proofs.Store.Entries
import AgentDocs.Proofs.Store.Files
import AgentDocs.Proofs.Store.Order
import AgentDocs.Proofs.Store.Places
import AgentDocs.Proofs.Store.Region
import AgentDocs.Proofs.Store.Writable
import AgentDocs.Proofs.Template.Headed
import AgentDocs.Proofs.Template.Outputs
import AgentDocs.Proofs.Text.Fields
import AgentDocs.Proofs.Text.Slice
import AgentDocs.Render.Imports
import AgentDocs.Render.Renderer
import AgentDocs.Render.Session
import AgentDocs.Store.Basic
import AgentDocs.Store.Disk
import AgentDocs.Store.Error
import AgentDocs.Store.Memory
import AgentDocs.Store.Pattern
import AgentDocs.Template.Checked
import AgentDocs.Template.Classify
import AgentDocs.Template.Collected
import AgentDocs.Template.Content
import AgentDocs.Template.Fault
import AgentDocs.Template.HeaderTargets
import AgentDocs.Template.Outputs
import AgentDocs.Template.Parameters
import AgentDocs.Template.References
import AgentDocs.Template.Spec
import AgentDocs.Text.Blank
import AgentDocs.Text.Fence
import AgentDocs.Text.Fields
import AgentDocs.Text.Hidden
import AgentDocs.Text.LowerCase
import AgentDocs.Text.Quoted
import AgentDocs.Text.Slice
import AgentDocs.Yaml.Core
import AgentDocs.Yaml.Cursor
import AgentDocs.Yaml.Decode
import AgentDocs.Yaml.Lexer
import AgentDocs.Yaml.Node
import AgentDocs.Yaml.Scalar
import AgentDocs.Yaml.Style
import AgentDocs.Yaml.Token
import AgentDocs.Yaml.Writer
import AgentDocs.Proofs.Markup.Blocks
import AgentDocs.Proofs.Markup.InStep
import AgentDocs.Proofs.Generate.Saved
import AgentDocs.Proofs.Yaml.Plain
import AgentDocs.Proofs.Yaml.Escape
import AgentDocs.Proofs.Yaml.Quoted
import AgentDocs.Proofs.Yaml.Block
import AgentDocs.Proofs.Yaml.Entries
import AgentDocs.Proofs.Yaml.Fields
import AgentDocs.Proofs.Markup.Frontmatter
import AgentDocs.Proofs.Template.SkillFile
import AgentDocs.Proofs.Path.Outward
import AgentDocs.Proofs.Store.Tree
import AgentDocs.Proofs.Store.Overlap
import AgentDocs.Proofs.Template.Mapping
import AgentDocs.Proofs.Generate.Sweep
import AgentDocs.Proofs.Markup.Body
import AgentDocs.Proofs.Render.Variables
import AgentDocs.Proofs.Command.Keeping
import AgentDocs.Proofs.Render.Kept
import AgentDocs.Proofs.Render.Once
import AgentDocs.Proofs.Render.Sections
import AgentDocs.Proofs.Generate.FirstFile
import AgentDocs.Proofs.Template.Checked
import AgentDocs.Proofs.Template.Declared
import AgentDocs.Proofs.Project.Parameters
import AgentDocs.Proofs.Path.NormalForm
import AgentDocs.Proofs.Render.LinksBack
import AgentDocs.Proofs.Generate.ListedDocs
import AgentDocs.Proofs.Store.Subdirs
import AgentDocs.Proofs.Template.Spread
import AgentDocs.Proofs.Markup.LineEnds
import AgentDocs.Proofs.Text.Substitute
import AgentDocs.Proofs.Markup.Fill
import AgentDocs.Proofs.Markup.Reordering
import AgentDocs.Proofs.Text.Fence
import AgentDocs.Proofs.Command.Blocks
import AgentDocs.Proofs.Text.Bytes
import AgentDocs.Proofs.Store.Forest
import AgentDocs.Proofs.Store.DepthFirst
import AgentDocs.Proofs.Generate.Discovery
import AgentDocs.Proofs.Markup.HeaderNames
import AgentDocs.Proofs.Template.HeaderCommands
import AgentDocs.Proofs.Command.Rooted
import AgentDocs.Proofs.Store.Hindered
import AgentDocs.Proofs.Generate.SweepOnDisk
