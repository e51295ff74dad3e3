import ExpressCore.Verification.Session.Runs
import ExpressCore.Verification.Session.Completeness
import ExpressCore.Verification.Session.Grace
import ExpressCore.Verification.Session.Successors
import ExpressCore.Model.Routes
import ExpressCore.Model.DeadLetter
import ExpressCore.Model.EmailTemplate
import ExpressCore.Model.Paginator
import ExpressCore.Library.Pattern
import ExpressCore.Model.EmailRender
import ExpressCore.Model.Lists
import ExpressCore.Verification.Session.Genealogy
import ExpressCore.Verification.DeadLetter.Redrive
import ExpressCore.Verification.Account.Activations
import ExpressCore.Verification.Account.Newest
import ExpressCore.Verification.Otp.Tickets
import ExpressCore.Verification.Otp.Verified
import ExpressCore.Verification.Otp.Resends
import ExpressCore.Verification.Otp.Accounts
import ExpressCore.Verification.Role.Assignments
import ExpressCore.Verification.Role.Tracking
import ExpressCore.Verification.Role.Denial
import ExpressCore.Verification.Account.Naming
import ExpressCore.Verification.Account.Profiles
import ExpressCore.Verification.Outbox.Leases
import ExpressCore.Verification.Outbox.Delivery
import ExpressCore.Verification.Email.Runs
import ExpressCore.Verification.Paginator.Pages
import ExpressCore.Verification.EmailTemplate.Rendering
import ExpressCore.Verification.EmailTemplate.Agreement
import ExpressCore.Verification.EmailTemplate.Edits
import ExpressCore.Verification.Paginator.Links
import ExpressCore.Verification.Paginator.Search
import ExpressCore.Verification.Retention.Cleanup
import ExpressCore.Verification.Retention.Batches
import ExpressCore.Verification.Cron.Slots
import ExpressCore.Verification.Account.Reached
import ExpressCore.Verification.Account.Register
import ExpressCore.Verification.Upload.Fields
